import Reddyos.OrderedTree
import Reddyos.Framebuffer

/-! Virtual memory areas: the tree operations of `memory/vma.c` and the calls of
`syscalls/memory/memory.c` on top of it. Areas and their page records are kept as records
that remember their heap block; the tree implementation is a parameter. -/
namespace Reddyos

open OrderedTree

def vmaBase : U64 := 0x10000000#64

inductive VmaType where
  | anon
  | file
  deriving DecidableEq, Repr

inductive Errno where
  | einval
  | enomem
  | enodev
  deriving DecidableEq, Repr

/-- What an area uses of its file: whether the vnode has `ops`, whether they have `vma_fault`, and its device. -/
structure VmaFile where
  ops : Bool
  vmaFault : Bool
  fb : Option Framebuffer
  deriving DecidableEq, Repr

structure VmaPhysPage where
  start : U64
  phys : U64
  block : U64
  deriving DecidableEq, Repr

/-- `vm_area_t`; `stop` is its field `end`. -/
structure Area where
  start : U64
  stop : U64
  vmFlags : U64
  type : VmaType
  physPages : List VmaPhysPage
  file : Option VmaFile
  pgoff : U64
  block : U64
  deriving DecidableEq, Repr

def Area.zero : Area := ⟨0#64,0#64,0#64,.anon,[],none,0#64,0#64⟩

/-- The areas of a process: records by number, and the tree of those in use. -/
structure Areas where
  area : Nat → Area
  tree : OrderedTree.Tree Nat
  fresh : Nat

def areasInit : Areas := ⟨fun _ => .zero,.nil,0⟩

/-- The tree library and the size of its node, which is embedded in an area. -/
structure Ftrees where
  ops : Ops Nat Nat
  nodeBytes : U64

def Areas.key (a : Areas) (p : Nat) : Nat := (a.area p).start.toNat

def Areas.set (a : Areas) (p : Nat) (vma : Area) : Areas :=
  { a with area := fun q => if q = p then vma else a.area q }

def vmaInsert (ft : Ftrees) (p : Nat) (a : Areas) : Areas :=
  { a with tree := ft.ops.insert a.key a.tree p }

def vmaRemove (ft : Ftrees) (p : Nat) (a : Areas) : Areas :=
  { a with tree := ft.ops.remove a.tree p }

def vmaFind (ft : Ftrees) (a : Areas) (addr : U64) : Option Nat :=
  match ft.ops.searchLe a.key a.tree addr.toNat with
  | none => none
  | some p => if (a.area p).start ≤ addr ∧ addr < (a.area p).stop then some p else none

def overlapsFrom (ft : Ftrees) (a : Areas) (start stop : U64) : Nat → Option Nat → Bool
  | 0, _ => false
  | _ + 1, none => false
  | fuel + 1, some p =>
    if stop ≤ (a.area p).start then false
    else if start < (a.area p).stop ∧ (a.area p).start < stop then true
    else overlapsFrom ft a start stop fuel (ft.ops.successor a.tree p)

def vmaOverlaps (ft : Ftrees) (a : Areas) (start stop : U64) : Bool :=
  let fuel := (inorder a.tree).length + 1
  match ft.ops.searchLe a.key a.tree start.toNat with
  | none => overlapsFrom ft a start stop fuel (ft.ops.minimum a.tree)
  | some p => overlapsFrom ft a start stop fuel (some p)

/-- The pair is `last_end` and `result`, the latter 0 until a gap is found. -/
def scan (a : Areas) (length : U64) : OrderedTree.Tree Nat → U64 × U64 → U64 × U64
  | .nil, st => st
  | .node left p right, (lastEnd,result) =>
    if result ≠ 0#64 then (lastEnd,result)
    else
      let st := scan a length left (lastEnd,result)
      if length ≤ (a.area p).start - st.1 then (st.1,st.1)
      else scan a length right ((a.area p).stop,st.2)

def vmaFindFreeRegion (ft : Ftrees) (a : Areas) (length : U64) : U64 :=
  let st := scan a length a.tree (vmaBase,0#64)
  if vmaOverlaps ft a st.1 (st.1 + length) then 0#64
  else if st.2 ≠ 0#64 then st.2
  else st.1

/-- `mmap_region` behind its allocation of the record in `block`. -/
def mmapRegion (ft : Ftrees) (file : Option VmaFile) (addr len vmFlags pgoff block : U64) (a : Areas) :
    Except Errno U64 × Areas :=
  let vma : Area := { Area.zero with start := addr, stop := addr + len, vmFlags := vmFlags, block := block }
  match file with
  | some f =>
    if !f.vmaFault then (.error .enodev,a)
    else
      let a := { a.set a.fresh { vma with type := .file, file := some f, pgoff := pgoff } with
        fresh := a.fresh + 1 }
      (.ok addr,vmaInsert ft (a.fresh - 1) a)
  | none =>
    let a := { a.set a.fresh vma with fresh := a.fresh + 1 }
    (.ok addr,vmaInsert ft (a.fresh - 1) a)

def tailArea (vma : Area) (addr len block : U64) : Area :=
  let start := addr + len
  { Area.zero with
    start := start
    stop := vma.stop
    vmFlags := vma.vmFlags
    type := vma.type
    file := if vma.type = .file then vma.file else none
    pgoff := if vma.type = .file then vma.pgoff + (start - vma.start) else 0#64
    block := block }

def trimArea (vma : Area) (addr len : U64) : Area :=
  if addr = vma.start then
    { vma with
      start := vma.start + len
      pgoff := if vma.type = .file then vma.pgoff + len else vma.pgoff }
  else { vma with stop := addr }

/-- `munmap_region` up to its last step: the area to clean up or, when nothing is left of
it, to destroy. `block` is the record of the tail where one is needed. -/
def munmapAreas (ft : Ftrees) (addr len block : U64) (a : Areas) : Option (Nat × Bool × Areas) :=
  match vmaFind ft a addr with
  | none => none
  | some p =>
    let vma := a.area p
    if addr < vma.start ∨ vma.stop < addr + len then none
    else
      let a :=
        if vma.start < addr ∧ addr + len < vma.stop then
          vmaInsert ft a.fresh
            { a.set a.fresh (tailArea vma addr len block) with fresh := a.fresh + 1 }
        else a
      let a := a.set p (trimArea vma addr len)
      if (a.area p).stop ≤ (a.area p).start then some (p,true,vmaRemove ft p a)
      else some (p,false,a)

def munmapSplits (ft : Ftrees) (addr len : U64) (a : Areas) : Bool :=
  match vmaFind ft a addr with
  | none => false
  | some p =>
    decide ((a.area p).start < addr ∧ addr + len < (a.area p).stop)

end Reddyos
