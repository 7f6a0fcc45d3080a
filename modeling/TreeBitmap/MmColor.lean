import TreeBitmap.MbNode
import TreeBitmap.Lib.Run
import Mathlib.Data.Fin.VecNotation

/-!
# The page-colour allocator (`lib/mm_color.c`)

The allocator of `MEM_ALLOC_COLOR` keeps the nodes of different levels in pages of
different colours, so that they do not compete for the same lines of the cache.  It takes
its memory from one mapping of huge pages, in areas of a few pages each.  There are three
shares, for the levels 0, 1 and all others; each has a list of areas, and a list of freed
blocks for each size.

An address is an offset from `m->addr`.  What `/proc/pid/pagemap` says about the huge pages
is the parameter `pfnbuf`.  `malloc` may fail: each call is told whether it does.  `none` is
an access outside an array, or the `exit(-1)` of `mc_dealloc_node`.

## Main definitions

* `McPriv` — `struct mc_priv`; `mcInit` — as `mc_init` leaves it.
* `lmaInit`, `findLma`, `lmaAlloc`, `lmAlloc` — areas and their blocks.
* `mcAllocNode`, `mcDeallocNode` — the two calls.
* `McCall`, `mcStep` — a client of the allocator, with the blocks it holds.
-/

namespace TreeBitmap

/-- The size of the mapping. -/
def MEMORY_SIZE : ℕ := 32 * 1024 * 1024

def PAGE_SHIFT : ℕ := 12

def PAGE_SIZE : ℕ := 1 <<< PAGE_SHIFT

def CACHE_OVERLAP : ℕ := 32 * 1024

/-- The size of a huge page. -/
def HPAGE_SIZE : ℕ := 2 * 1024 * 1024

def PAGE_COLORS : ℕ := 8

/-- The number of shares. -/
abbrev SHARE : ℕ := 3

/-- `struct cache_share`. -/
structure CacheShare where
  pageColor : ℕ
  size : ℕ

/-- `struct lm_area`, with the number of the share in place of the pointer to it. -/
structure LmArea where
  start : ℕ
  alloc : ℕ
  left : ℕ
  pcs : Fin SHARE

/-- `struct mc_priv`.  The field `pfnReads` is a log of the accesses to `pfnbuf`, last one
first. -/
structure McPriv where
  pfnbuf : ℕ → BitVec 64
  cs : Fin SHARE → CacheShare
  lm : Fin SHARE → List LmArea
  freeHead : Fin SHARE → ℕ → List ℕ
  lma : ℕ
  pfnReads : List ℕ

/-! ## `mc_init` -/

/-- The sizes that `mc_init` sets first. -/
def shareSize : Fin SHARE → ℕ := ![2 * 4 * 1024, 5 * 4 * 1024, 1 * 4 * 1024]

/-- The loop of `mc_init`, with `old_size` and `next_color`. -/
def mcInitShare : McPriv × ℕ × ℕ → Fin SHARE → McPriv × ℕ × ℕ
  | (m, oldSize, nextColor), i =>
      let size := (m.cs i).size
      let lma : LmArea := ⟨oldSize, oldSize, size, i⟩
      let oldSize := oldSize + size
      let (pageColor, pfnReads) :=
        if i = 0 then ((m.pfnbuf 0).toNat % PAGE_COLORS, 0 :: m.pfnReads)
        else (nextColor, m.pfnReads)
      let nextColor := (pageColor + size / PAGE_SIZE) % PAGE_COLORS
      ({ m with
          cs := Function.update m.cs i ⟨pageColor, size⟩
          lm := Function.update m.lm i [lma]
          freeHead := Function.update m.freeHead i fun _ => []
          pfnReads := pfnReads }, oldSize, nextColor)

/-- `mc_init`, when it succeeds. -/
def mcInit (pfnbuf : ℕ → BitVec 64) : McPriv :=
  ((List.finRange SHARE).foldl mcInitShare
    (⟨pfnbuf, fun i => ⟨0, shareSize i⟩, fun _ => [], fun _ _ => [], 0, []⟩, 0, 0)).1

/-! ## Areas -/

/-- `last_page` and `new_page` of `lma_init`. -/
def lastPage (lastLma : LmArea) : ℕ := lastLma.start / HPAGE_SIZE

@[inherit_doc lastPage]
def newPage (m : McPriv) (lastLma : LmArea) : ℕ :=
  (lastLma.start + CACHE_OVERLAP + (m.cs lastLma.pcs).size) / HPAGE_SIZE

/-- Where `lma_init` lets the area after `lastLma` start. -/
def newStart (m : McPriv) (lastLma : LmArea) : ℕ :=
  if newPage m lastLma ≠ lastPage lastLma then
    let startPageColor := (m.pfnbuf (newPage m lastLma)).toNat % PAGE_COLORS
    let pageColor := (m.cs lastLma.pcs).pageColor
    if startPageColor < pageColor then
      newPage m lastLma * HPAGE_SIZE + (pageColor - startPageColor) * PAGE_SIZE
    else if pageColor < startPageColor then
      newPage m lastLma * HPAGE_SIZE + (PAGE_COLORS + pageColor - startPageColor) * PAGE_SIZE
    else newPage m lastLma * HPAGE_SIZE
  else lastLma.start + CACHE_OVERLAP

/-- `lma_init`: the next area after `lastLma`, at the end of the list. -/
def lmaInit (m : McPriv) (share : Fin SHARE) (lastLma : LmArea) : McPriv :=
  let start := newStart m lastLma
  let newLma : LmArea := ⟨start, start, (m.cs lastLma.pcs).size, lastLma.pcs⟩
  { m with
    lm := Function.update m.lm share (m.lm share ++ [newLma])
    pfnReads :=
      if newPage m lastLma ≠ lastPage lastLma then newPage m lastLma :: m.pfnReads
      else m.pfnReads }

/-- `find_lma`: the number of the area in the list of the share. -/
def findLma (m : McPriv) (share : Fin SHARE) (nodeNum : ℕ) (malloc : Bool) :
    Option (Option ℕ × McPriv) :=
  match (m.lm share).findIdx? fun lma => nodeNum * NODE_SIZE < lma.left with
  | some i => some (some i, m)
  | none => do
      let lastLma ← (m.lm share).getLast?
      if malloc then
        let m := { m with lma := m.lma + 1 }
        some (some (m.lm share).length, lmaInit m share lastLma)
      else some (none, m)

/-- The area after `lma_alloc` has taken a block off it. -/
def LmArea.cut (lma : LmArea) (nodeNum : ℕ) : LmArea :=
  { lma with
    alloc := lma.alloc + nodeNum * NODE_SIZE
    left := lma.left - nodeNum * NODE_SIZE }

/-- `lma_alloc`. -/
def lmaAlloc (lma : LmArea) (nodeNum : ℕ) : Option ℕ × LmArea :=
  if nodeNum * NODE_SIZE < lma.left then (some lma.alloc, lma.cut nodeNum) else (none, lma)

/-- The area in place. -/
def McPriv.setLma (m : McPriv) (share : Fin SHARE) (i : ℕ) (lma : LmArea) : McPriv :=
  { m with lm := Function.update m.lm share ((m.lm share).set i lma) }

/-- The list of freed blocks in place. -/
def McPriv.setFree (m : McPriv) (share : Fin SHARE) (nodeNum : ℕ) (ps : List ℕ) : McPriv :=
  { m with
    freeHead := Function.update m.freeHead share (Function.update (m.freeHead share) nodeNum ps) }

/-- `lm_alloc`. -/
def lmAlloc (m : McPriv) (nodeNum : ℕ) (share : Fin SHARE) (malloc : Bool) :
    Option (Option ℕ × McPriv) := do
  guard (nodeNum < (1 <<< STRIDE) * 2)
  match m.freeHead share nodeNum with
  | p :: ps => some (some p, m.setFree share nodeNum ps)
  | [] => do
      let (found, m) ← findLma m share nodeNum malloc
      match found with
      | none => some (none, m)
      | some i => do
          let lma ← (m.lm share)[i]?
          let (ret, lma) := lmaAlloc lma nodeNum
          some (ret, m.setLma share i lma)

/-! ## The two calls -/

/-- `switch(level)`. -/
def shareOf : ℕ → Fin SHARE
  | 0 => 0
  | 1 => 1
  | _ => 2

/-- `mc_alloc_node`. -/
def mcAllocNode (m : McPriv) (nodeNum level : ℕ) (malloc : Bool) : Option (Option ℕ × McPriv) :=
  if nodeNum = 0 then some (none, m)
  else if (1 <<< STRIDE) * 2 < nodeNum then some (none, m)
  else lmAlloc m nodeNum (shareOf level) malloc

/-- `mc_dealloc_node`. -/
def mcDeallocNode (m : McPriv) (nodeNum level p : ℕ) (malloc : Bool) : Option McPriv := do
  guard malloc
  if (1 <<< STRIDE) * 2 < nodeNum then some m
  else do
    let share := shareOf level
    guard (nodeNum < (1 <<< STRIDE) * 2)
    some (m.setFree share nodeNum (p :: m.freeHead share nodeNum))

/-! ## Clients -/

/-- A block that the client holds, with the arguments it asked for it with. -/
structure McBlock where
  p : ℕ
  nodeNum : ℕ
  level : ℕ
  deriving DecidableEq

/-- A call of the allocator, and whether `malloc` succeeds in it. -/
inductive McCall
  | alloc (nodeNum level : ℕ) (malloc : Bool)
  | dealloc (b : McBlock) (malloc : Bool)

/-- A call, with the blocks that the client holds before and after. -/
def mcStep : McPriv × List McBlock → McCall → Option (McPriv × List McBlock)
  | (m, live), .alloc nodeNum level malloc => do
      let (ret, m) ← mcAllocNode m nodeNum level malloc
      match ret with
      | none => some (m, live)
      | some p => some (m, ⟨p, nodeNum, level⟩ :: live)
  | (m, live), .dealloc b malloc => do
      let m ← mcDeallocNode m b.nodeNum b.level b.p malloc
      some (m, live.erase b)

/-- What the client keeps to: it asks for `1` to `127` nodes, and gives back what it holds,
with the arguments it asked for it with. -/
def mcLegal : McPriv × List McBlock → McCall → Prop
  | _, .alloc nodeNum _ _ => 1 ≤ nodeNum ∧ nodeNum < 2 * (1 <<< STRIDE)
  | (_, live), .dealloc b _ => b ∈ live

end TreeBitmap
