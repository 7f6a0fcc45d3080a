import TreeBitmap.Mm
import Mathlib.Data.Nat.Notation

/-!
# Multi-bit nodes (`lib/mb_node.h`, `lib/mb_node.c`)

A node of a tree bitmap carries two 64-bit bitmaps and one pointer.  The pointer
splits a block: below it lie the next hops of the node, one slot for each bit of
`internal`, growing downwards, and above it its child nodes, one for each bit of
`external`, growing upwards.  The block of a node is owned by that node alone, so
the model keeps the two arrays in the node itself, next to the pointer, with slot
`k` of `rules` for the word `child_ptr[-(k + 1)]` and slot `k` of `children` for
the node `child_ptr[k]`.

A read or a write outside an array is `none`, and so is every `memcpy` that would
leave its source or its destination.  A `NULL` block has no slots at all, which is
how a store through it faults.

## Main definitions

* `MbNode` — `struct mb_node` with its block.
* `countOnes`, `countInlBitmap`, `testBitmap`, … — the bit fiddling.
* `treeFunction`, `findOverlapInNode` — the longest match inside one node.
* `newNode`, `freeNode`, `extendRule`, `extendChild`, `reduceChild`, `reduceRule`
  — the array edits, each of which moves the node to a new block.
-/

namespace TreeBitmap

/-- A next hop, `void *nhi`.  `NULL` is `0`. -/
abbrev Nhi := BitVec 64

/-- `BITMAP_TYPE`. -/
abbrev Bitmap := BitVec 64

/-- The number of address bits a node consumes. -/
def STRIDE : ℕ := 6

@[simp] theorem STRIDE_eq : STRIDE = 6 := rfl

/-- `struct mb_node`, with the contents of the block that `child_ptr` points into. -/
structure MbNode where
  external : Bitmap
  internal : Bitmap
  childPtr : Option Ptr
  rules : List Nhi
  children : List MbNode
  deriving Repr

/-- `{0, 0, NULL}`: the root before the first insert, and what zeroed memory holds. -/
def MbNode.zero : MbNode := ⟨0, 0, none, [], []⟩

@[simp] theorem MbNode.internal_zero : MbNode.zero.internal = 0#64 := rfl

@[simp] theorem MbNode.external_zero : MbNode.zero.external = 0#64 := rfl

theorem MbNode.sizeOf_lt_of_mem {n c : MbNode} (h : c ∈ n.children) : sizeOf c < sizeOf n := by
  have := List.sizeOf_lt_of_mem h
  cases n
  simp only [MbNode.mk.sizeOf_spec] at *
  omega

/-- Induction over the nodes below a node. -/
@[elab_as_elim]
theorem MbNode.induction {P : MbNode → Prop}
    (h : ∀ n : MbNode, (∀ c ∈ n.children, P c) → P n) (n : MbNode) : P n := by
  induction hs : sizeOf n using Nat.strong_induction_on generalizing n with
  | _ s ih =>
      subst hs
      exact h n fun c hc => ih _ (MbNode.sizeOf_lt_of_mem hc) c rfl

/-! ## Arrays -/

/-- Read slot `i`. -/
def load {α : Type} (l : List α) (i : ℤ) : Option α :=
  if 0 ≤ i then l[i.toNat]? else none

/-- Write slot `i`. -/
def store {α : Type} (l : List α) (i : ℤ) (x : α) : Option (List α) :=
  if 0 ≤ i ∧ i < l.length then some (l.set i.toNat x) else none

/-- Copy `len` slots of `src`, from slot `i` on, over those of `dst` from slot `j`
on.  A negative `len` is a huge one to the C code. -/
def memcpy {α : Type} (dst : List α) (j : ℤ) (src : List α) (i len : ℤ) : Option (List α) :=
  if len = 0 then some dst
  else if 0 < len ∧ 0 ≤ i ∧ 0 ≤ j ∧ i + len ≤ src.length ∧ j + len ≤ dst.length then
    some (dst.take j.toNat ++ (src.drop i.toNat).take len.toNat ++ dst.drop (j + len).toNat)
  else none

/-- The same for next-hop slots, which grow downwards: `len` words from
`(void**)src - i` to `(void**)dst - j`. -/
def memcpyRules (dst : List Nhi) (j : ℤ) (src : List Nhi) (i len : ℤ) : Option (List Nhi) :=
  memcpy dst (j - len) src (i - len) len

/-! ## Bitmaps -/

/-- `__builtin_popcountl`. -/
def popcount (bitmap : Bitmap) : ℕ := bitmap.cpop.toNat

/-- `UP_RULE`: the units that this many next-hop slots take. -/
def upRule (x : ℕ) : ℕ := (x * 8 + NODE_SIZE - 1) / NODE_SIZE

/-- `UP_CHILD`. -/
def upChild (x : ℕ) : ℕ := x

/-- `count_ones`. -/
def countOnes (bitmap : Bitmap) (pos : ℕ) : ℤ := popcount (bitmap >>> pos) - 1

/-- `count_children`. -/
def countChildren (bitmap : Bitmap) : ℕ := popcount bitmap

/-- `count_inl_bitmap`: the position of the prefix `bit` of length `cidr`. -/
def countInlBitmap (bit cidr : ℕ) : ℕ := 2 ^ cidr + bit - 1

/-- `count_enl_bitmap`. -/
abbrev countEnlBitmap (bits : ℕ) : ℕ := bits

/-- `test_bitmap`. -/
def testBitmap (bitmap : Bitmap) (pos : ℕ) : Bool := bitmap &&& (1#64 <<< pos) != 0#64

/-- `set_bitmap`. -/
def setBitmap (bitmap : Bitmap) (pos : ℕ) : Bitmap := bitmap ||| (1#64 <<< pos)

/-- `clear_bitmap`. -/
def clearBitmap (bitmap : Bitmap) (pos : ℕ) : Bitmap := bitmap &&& ~~~(1#64 <<< pos)

/-- Conversion to `uint8_t`. -/
def u8 (x : ℕ) : ℕ := x % 256

/-! ## The longest match inside a node -/

/-- `BITMAP_BITS`. -/
def BITMAP_BITS : ℕ := 2 ^ STRIDE

/-- The inner loop of `fast_lookup_init`: set the positions of the prefixes of
lengths `j - 1` down to `0`. -/
def fastLookupInit : ℕ → ℕ → Bitmap → Bitmap
  | 0, _, b => b
  | j + 1, stride, b => fastLookupInit j (stride >>> 1) (setBitmap b (countInlBitmap stride j))

/-- The table `fct`, as `fast_lookup_init` leaves it. -/
def fct (i : ℕ) : Bitmap := fastLookupInit STRIDE i 0

/-- `tree_function`, as compiled with `FAST_TREE_FUNCTION`: `-1` if there is no match. -/
def treeFunction (bitmap : Bitmap) (stride : ℕ) : ℤ :=
  let ret := fct (stride >>> 1) &&& bitmap
  if ret ≠ 0#64 then
    let pos := ret.clz.toNat
    BITMAP_BITS - 1 - pos
  else -1

/-- The loop of `find_overlap_in_node`, with `i - 1` for its counter: the position
found, or `-1`, and the last value written to `*mask`. -/
def findOverlapLoop (bitmap : Bitmap) : ℕ → ℕ → ℕ → ℤ × ℕ
  | 0, _, mask => (-1, mask)
  | i + 1, stride, _ =>
      let stride := stride >>> 1
      let pos := countInlBitmap stride i
      if testBitmap bitmap pos then (pos, i) else findOverlapLoop bitmap i stride i

/-- `find_overlap_in_node`: the longest match of length below `limitInside`. -/
def findOverlapInNode (bitmap : Bitmap) (stride mask limitInside : ℕ) : ℤ × ℕ :=
  if bitmap = 0#64 then (-1, mask)
  else findOverlapLoop bitmap limitInside (stride >>> (STRIDE - limitInside)) mask

/-! ## Pointers into a node's block -/

/-- `next_child`: the slot number of the child at a position. -/
def nextChild (current : MbNode) (pos : ℕ) : ℤ := countOnes current.external pos

/-- A `void **` into the next-hop slots of a node. -/
structure NhiPtr where
  node : MbNode
  slot : ℤ

/-- `pointer_to_nhi`. -/
def pointerToNhi (current : MbNode) (pos : ℕ) : NhiPtr :=
  ⟨current, countOnes current.internal pos⟩

/-- `*p`. -/
def NhiPtr.deref (p : NhiPtr) : Option Nhi := load p.node.rules p.slot

/-- `*p = nhi`: the node after the store. -/
def NhiPtr.assign (p : NhiPtr) (nhi : Nhi) : Option MbNode := do
  let rules ← store p.node.rules p.slot nhi
  some { p.node with rules := rules }

/-- Read `*next_child(node, pos)`. -/
def MbNode.child (node : MbNode) (pos : ℕ) : Option MbNode :=
  load node.children (nextChild node pos)

theorem MbNode.child_mem {n c : MbNode} {pos : ℕ} (h : n.child pos = some c) :
    c ∈ n.children := by
  rw [MbNode.child, load] at h
  split at h
  · exact List.mem_of_getElem? h
  · cases h

/-- What becomes of `node` when `*next_child(node, pos)` has changed in place. -/
def MbNode.setChild (node : MbNode) (pos : ℕ) (c : MbNode) : Option MbNode := do
  let children ← store node.children (nextChild node pos) c
  some { node with children := children }

/-! ## Blocks -/

/-- A block as `new_node` hands it out: the pointer between its two arrays, and the
arrays.  For `NULL` there are none. -/
structure Region where
  ptr : Option Ptr
  rules : List Nhi
  children : List MbNode

/-- `new_node`: room for `mbCnt` children and `nhCnt` next hops, all zero. -/
def newNode (m : Mm) (mbCnt nhCnt level : ℕ) : Option (Region × Mm) := do
  let rC := upRule nhCnt
  let (ret, m) ← allocNode m (upChild mbCnt + rC) level
  match ret with
  | none => some (⟨none, [], []⟩, m)
  | some p =>
      some (⟨some { p with off := p.off + rC }, List.replicate nhCnt 0,
        List.replicate mbCnt MbNode.zero⟩, m)

/-- `free_node`. -/
def freeNode (m : Mm) (ptr : Option Ptr) (cnt level : ℕ) : Option Mm :=
  match ptr with
  | none => some m
  | some p => deallocNode m cnt level p

/-- The end of all four edits: if the node had a block, give it back, with its base
and its size recomputed from the counts. -/
def freeOld (m : Mm) (node : MbNode) (ruleNum childNum level : ℕ) : Option Mm :=
  match node.childPtr with
  | none => some m
  | some p => freeNode m (some (p.sub (upRule ruleNum))) (upChild childNum + upRule ruleNum) level

/-- `extend_rule`: add a next hop at a clear position of `internal`. -/
def extendRule (m : Mm) (node : MbNode) (pos level : ℕ) (nhi : Nhi) : Option (MbNode × Mm) := do
  let childNum := countChildren node.external
  let ruleNum := countChildren node.internal
  let internal := setBitmap node.internal pos
  let pos := countOnes internal pos + 1
  let (n, m) ← newNode m childNum (ruleNum + 1) level
  let children ← (if childNum ≠ 0 then memcpy n.children 0 node.children 0 (upChild childNum)
    else some n.children)
  -- slots 1 to pos - 1 stay, slots pos to ruleNum move one further down
  let rules ← (if ruleNum ≠ 0 then do
      let rules ← memcpyRules n.rules (pos - 1) node.rules (pos - 1) (pos - 1)
      memcpyRules rules (ruleNum + 1) node.rules ruleNum (ruleNum - pos + 1)
    else some n.rules)
  let rules ← store rules (pos - 1) nhi
  let m ← freeOld m node ruleNum childNum level
  some (⟨node.external, internal, n.ptr, rules, children⟩, m)

/-- `extend_child`: add a zero child at a clear position of `external`; also returns
the slot of that child, which the code returns as a pointer. -/
def extendChild (m : Mm) (node : MbNode) (level pos : ℕ) : Option (MbNode × ℤ × Mm) := do
  let childNum := countChildren node.external
  let ruleNum := countChildren node.internal
  let external := setBitmap node.external pos
  let pos := countOnes external pos
  let (n, m) ← newNode m (childNum + 1) ruleNum level
  let rules ← (if ruleNum ≠ 0 then memcpyRules n.rules ruleNum node.rules ruleNum ruleNum
    else some n.rules)
  let children ← (if childNum ≠ 0 then do
      let children ← memcpy n.children 0 node.children 0 pos
      memcpy children (pos + 1) node.children pos (childNum - pos)
    else some n.children)
  let m ← freeOld m node ruleNum childNum level
  some (⟨external, node.internal, n.ptr, rules, children⟩, pos, m)

/-- `reduce_child`: drop the child at a set position of `external`.  Without any
child the code prints an error and asks for `-1` children, which no block covers. -/
def reduceChild (m : Mm) (node : MbNode) (pos level : ℕ) : Option (MbNode × Mm) := do
  let childNum := countChildren node.external
  let ruleNum := countChildren node.internal
  let external := clearBitmap node.external pos
  let pos := countOnes node.external pos
  guard (¬ childNum < 1)
  let (n, m) ← newNode m (childNum - 1) ruleNum level
  let rules ← (if ruleNum ≠ 0 then memcpyRules n.rules ruleNum node.rules ruleNum ruleNum
    else some n.rules)
  let children ← (if 1 < childNum then do
      let children ← memcpy n.children 0 node.children 0 pos
      memcpy children pos node.children (pos + 1) (childNum - pos - 1)
    else some n.children)
  let m ← freeOld m node ruleNum childNum level
  some (⟨external, node.internal, n.ptr, rules, children⟩, m)

/-- `reduce_rule`: drop the next hop at a set position of `internal`.  Without any
next hop the code prints an error and keeps the block. -/
def reduceRule (m : Mm) (node : MbNode) (pos level : ℕ) : Option (MbNode × Mm) := do
  let childNum := countChildren node.external
  let ruleNum := countChildren node.internal
  let internal := clearBitmap node.internal pos
  let pos := countOnes node.internal pos + 1
  if ruleNum < 1 then some ({ node with internal := internal }, m)
  else do
    let (n, m) ← newNode m childNum (ruleNum - 1) level
    let children ← (if childNum ≠ 0 then memcpy n.children 0 node.children 0 (upChild childNum)
      else some n.children)
    -- slots 1 to pos - 1 stay, slots pos + 1 to ruleNum move one further up
    let rules ← (if 1 < ruleNum then do
        let rules ← memcpyRules n.rules (pos - 1) node.rules (pos - 1) (pos - 1)
        memcpyRules rules (ruleNum - 1) node.rules ruleNum (ruleNum - pos)
      else some n.rules)
    let m ← freeOld m node ruleNum childNum level
    some (⟨node.external, internal, n.ptr, rules, children⟩, m)

/-- `node->internal == 0 && node->external == 0`. -/
def MbNode.isEmpty (node : MbNode) : Bool := node.internal == 0#64 && node.external == 0#64

end TreeBitmap
