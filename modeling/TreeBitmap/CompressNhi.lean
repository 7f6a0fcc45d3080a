import TreeBitmap.Bitmap

/-!
# The `COMPRESS_NHI` build (`lib/mb_node.h`, `lib/mb_node.c`)

Compiled with `COMPRESS_NHI`, a node stores a next hop only once for neighbouring
prefixes that have it in common.  A third bitmap, the mask, says which positions of
`internal` have a slot; the others use the slot of the next position that has one.  The
mask is the first of the words below `child_ptr`, and is there only if the node has
a next hop.

The functions here are the branches of the two files under `#ifdef COMPRESS_NHI`, with
the functions of `bitmap.c` and `bitmap_v4.c` as they are compiled over them.  Everything
else, in particular the node itself, is that of the plain build: slot `k` of `rules` is the
word `child_ptr[-(k + 1)]`, so that slot `0` is the mask.

## Main definitions

* `getInlMask`, `pointerToNhi`, `isRedund` — the mask, the slots and the test for a next
  hop that is there already.
* `extendRule`, `extendChild`, `reduceChild`, `reduceRule` — the array edits.
* `insertPrefix`, `deletePrefix`, `doSearchLoop` — the operations of the engine.
* `doSearchLazyLoop`, `detectOverlapGeneric`, `mbNodeIter`, `destroySubtrie` — the other functions
  that read next hops.
-/

namespace TreeBitmap

namespace CompressNhi

open IpAddr (lshift)

variable {α : Type} [IpAddr α]

/-! ## `mb_node.h` -/

/-- `*get_inl_mask(n)`. -/
def getInlMask (n : MbNode) : Option Bitmap := load n.rules 0

/-- `*get_inl_mask(n) = mask`. -/
def setInlMask (n : MbNode) (mask : Bitmap) : Option MbNode := do
  let rules ← store n.rules 0 mask
  some { n with rules := rules }

/-- `pointer_to_nhi`. -/
def pointerToNhi (current : MbNode) (pos : ℕ) : Option NhiPtr := do
  let mask ← getInlMask current
  some ⟨current, countOnes mask pos + 1⟩

/-- `ctz`, and `rightmost_1bit_idx`. -/
def ctz (n : Bitmap) : ℕ := if n ≠ 0#64 then n.ctz.toNat else 64

/-! ## `mb_node.c` -/

/-- The words that this many units hold. -/
def words (units : ℕ) : ℕ := units * (NODE_SIZE / 8)

/-- `new_node`.  The words fill whole units: the first next hop of a node asks for one
word, and finds room for the mask as well. -/
def newNode (m : Mm) (mbCnt nhCnt level : ℕ) : Option (Region × Mm) := do
  let rC := upRule nhCnt
  let (ret, m) ← allocNode m (upChild mbCnt + rC) level
  match ret with
  | none => some (⟨none, [], []⟩, m)
  | some p =>
      some (⟨some { p with off := p.off + rC }, List.replicate (words rC) 0,
        List.replicate mbCnt MbNode.zero⟩, m)

/-- `is_redund`: the next position above `pos` has this next hop. -/
def isRedund (node : MbNode) (pos : ℕ) (nhi : Nhi) : Option Bool :=
  let tmp := node.internal
  -- clear the bits 0 to pos
  let tmp := (tmp >>> (pos + 1)) <<< (pos + 1)
  if tmp = 0#64 then some false
  else do
    let idx := ctz tmp
    let iter ← pointerToNhi node idx
    let nhi' ← iter.deref
    some (nhi' == nhi)

/-- `rule_num`: the words of a node, the mask included. -/
def ruleNum (node : MbNode) : Option ℕ :=
  if node.internal ≠ 0#64 then do
    let mask ← getInlMask node
    some (countChildren mask + 1)
  else some 0

/-- `extend_rule`: add a next hop at a clear position of `internal`. -/
def extendRule (m : Mm) (node : MbNode) (pos level : ℕ) (nhi : Nhi) : Option (MbNode × Mm) := do
  let childNum := countChildren node.external
  let ruleNum ← ruleNum node
  if ← isRedund node pos nhi then
    -- only update internal bitmap
    some ({ node with internal := setBitmap node.internal pos }, m)
  else do
    let (node, pos) ← (if node.internal ≠ 0#64 then do
        let mask ← getInlMask node
        let mask := setBitmap mask pos
        let node ← setInlMask node mask
        some ({ node with internal := setBitmap node.internal pos }, countOnes mask pos + 1 + 1)
      else some ({ node with internal := setBitmap node.internal pos }, 2))
    let (n, m) ← newNode m childNum (ruleNum + 1) level
    let children ← (if childNum ≠ 0 then memcpy n.children 0 node.children 0 (upChild childNum)
      else some n.children)
    -- copy bitmap
    let newMask ← (if 0 < ruleNum then getInlMask node else some node.internal)
    let rules ← store n.rules 0 newMask
    -- slots 1 to pos - 1 stay, slots pos to ruleNum move one further down
    let rules ← (if ruleNum ≠ 0 then do
        let rules ← memcpyRules rules (pos - 1) node.rules (pos - 1) (pos - 1)
        memcpyRules rules (ruleNum + 1) node.rules ruleNum (ruleNum - pos + 1)
      else some rules)
    let rules ← store rules (pos - 1) nhi
    let m ← freeOld m node ruleNum childNum level
    some (⟨node.external, node.internal, n.ptr, rules, children⟩, m)

/-- `extend_child`. -/
def extendChild (m : Mm) (node : MbNode) (level pos : ℕ) : Option (MbNode × ℤ × Mm) := do
  let childNum := countChildren node.external
  let ruleNum ← ruleNum node
  let external := setBitmap node.external pos
  let pos := countOnes external pos
  let (n, m) ← newNode m (childNum + 1) ruleNum level
  let rules ← (if ruleNum ≠ 0 then memcpyRules n.rules ruleNum node.rules ruleNum ruleNum
    else some n.rules)
  let children ← (if childNum ≠ 0 then do
      let children ← memcpy n.children 0 node.children 0 pos
      memcpy children (pos + 1) node.children pos (childNum - pos)
    else some n.children)
  let m ← freeOld m node ruleNum childNum level
  some (⟨external, node.internal, n.ptr, rules, children⟩, pos, m)

/-- `reduce_child`. -/
def reduceChild (m : Mm) (node : MbNode) (pos level : ℕ) : Option (MbNode × Mm) := do
  let childNum := countChildren node.external
  let ruleNum ← ruleNum node
  let external := clearBitmap node.external pos
  let pos := countOnes node.external pos
  guard (¬ childNum < 1)
  let (n, m) ← newNode m (childNum - 1) ruleNum level
  let rules ← (if ruleNum ≠ 0 then memcpyRules n.rules ruleNum node.rules ruleNum ruleNum
    else some n.rules)
  let children ← (if 1 < childNum then do
      let children ← memcpy n.children 0 node.children 0 pos
      memcpy children pos node.children (pos + 1) (childNum - pos - 1)
    else some n.children)
  let m ← freeOld m node ruleNum childNum level
  some (⟨external, node.internal, n.ptr, rules, children⟩, m)

/-- `reduce_rule`: drop the next hop at a set position of `internal`. -/
def reduceRule (m : Mm) (node : MbNode) (pos level : ℕ) : Option (MbNode × Mm) := do
  let childNum := countChildren node.external
  let ruleNum ← ruleNum node
  let mask ← getInlMask node
  let internal := clearBitmap node.internal pos
  if ¬ testBitmap mask pos then
    -- only clear internal bitmap
    some ({ node with internal := internal }, m)
  else do
    let node ← setInlMask node (clearBitmap mask pos)
    let pos := countOnes mask pos + 1 + 1
    if ruleNum ≤ 1 then some ({ node with internal := internal }, m)
    else do
      let (n, m) ← (if ruleNum = 2 then newNode m childNum 0 level
        else newNode m childNum (ruleNum - 1) level)
      let children ← (if childNum ≠ 0 then memcpy n.children 0 node.children 0 (upChild childNum)
        else some n.children)
      -- slots 1 to pos - 1 stay, slots pos + 1 to ruleNum move one further up
      let rules ← (if 2 < ruleNum then do
          let rules ← memcpyRules n.rules (pos - 1) node.rules (pos - 1) (pos - 1)
          memcpyRules rules (ruleNum - 1) node.rules ruleNum (ruleNum - pos)
        else some n.rules)
      let m ← freeOld m node ruleNum childNum level
      some (⟨node.external, internal, n.ptr, rules, children⟩, m)

/-! ## `bitmap_v4.c` and `bitmap.c` -/

/-- `bitmap_insert_prefix`. -/
def insertPrefix (m : Mm) (node : MbNode) (ip : α) (cidr level : ℕ) (nhi : Nhi) :
    Option (MbNode × Mm × ℤ) :=
  if cidr < STRIDE then
    let pos := leafPos ip cidr
    if testBitmap node.internal pos then do
      let i ← pointerToNhi node pos
      let node ← i.assign nhi
      some (node, m, 1)
    else do
      let (node, m) ← extendRule m node pos level nhi
      some (node, m, 0)
  else do
    let pos := countEnlBitmap (strideOf ip)
    let (node, slot, m) ← (if testBitmap node.external pos then some (node, nextChild node pos, m)
      else extendChild m node level pos)
    let child ← load node.children slot
    let (child, m, ret) ←
      insertPrefix m child (lshift ip STRIDE) (cidr - STRIDE) (u8 (level + 1)) nhi
    let children ← store node.children slot child
    some ({ node with children := children }, m, ret)
termination_by cidr
decreasing_by
  have := STRIDE_eq
  omega

/-- The loop of `update_nodes` above its first round. -/
def updateParents (m : Mm) (child : MbNode) (del : Bool) :
    List (MbNode × ℕ) → Option (MbNode × Mm × Bool)
  | [] => some (child, m, del)
  | (node, pos) :: trace => do
      let node ← node.setChild pos child
      let (node, m) ← (if del then reduceChild m node pos trace.length else some (node, m))
      updateParents m node node.isEmpty trace

/-- `update_nodes`. -/
def updateNodes (m : Mm) : List (MbNode × ℕ) → Option (MbNode × Mm × Bool)
  | [] => none
  | (node, pos) :: trace => do
      let (node, m) ← reduceRule m node pos trace.length
      updateParents m node node.isEmpty trace

/-- `bitmap_delete_prefix`.  The way down is that of the plain build. -/
def deletePrefix (m : Mm) (node : MbNode) (ip : α) (cidr : ℕ) (destroyNhi : Bool) :
    Option (MbNode × Mm × Bool × List Nhi) := do
  let trace ← deleteTrace node ip cidr []
  let (last, pos) ← trace.head?
  let calls ← (if destroyNhi then do
      let p ← pointerToNhi last pos
      let nhi ← p.deref
      some [nhi]
    else some [])
  let (node, m, ret) ← updateNodes m trace
  some (node, m, ret, calls)

/-- `bitmap_do_search`, with the local variable `longest`. -/
def doSearchLoop (n : MbNode) (ip : α) (longest : Option NhiPtr) : Option Nhi := do
  let stride := strideOf ip
  let pos := treeFunction n.internal stride
  let longest ← (if pos ≠ -1 then do
      let p ← pointerToNhi n pos.toNat
      some (some p)
    else some longest)
  if testBitmap n.external (countEnlBitmap stride) then
    match _h : n.child (countEnlBitmap stride) with
    | some c => doSearchLoop c (lshift ip STRIDE) longest
    | none => none
  else derefLongest longest
termination_by sizeOf n
decreasing_by exact MbNode.sizeOf_lt_of_mem (MbNode.child_mem _h)

/-- The last loop of `bitmap_do_search_lazy`. -/
def lazyUnwind (lazyMark : LazyMark) : ℕ → Option Nhi
  | 0 => some 0
  | depth + 1 =>
      let (n, stride) := lazyMark depth
      let pos := treeFunction n.internal stride
      if pos ≠ -1 then do
        let p ← pointerToNhi n pos.toNat
        p.deref
      else lazyUnwind lazyMark depth

/-- `bitmap_do_search_lazy`, where `depth` is `travel_depth + 1`. -/
def doSearchLazyLoop (n : MbNode) (ip : α) (lazyMark : LazyMark) (depth : ℕ) : Option Nhi :=
  let stride := strideOf ip
  if testBitmap n.external (countEnlBitmap stride) then
    if depth < LEVEL α then
      match _h : n.child (countEnlBitmap stride) with
      | some c =>
          doSearchLazyLoop c (lshift ip STRIDE) (Function.update lazyMark depth (n, stride))
            (depth + 1)
      | none => none
    else none
  else
    let pos := treeFunction n.internal stride
    if pos ≠ -1 then do
      let p ← pointerToNhi n pos.toNat
      p.deref
    else lazyUnwind lazyMark depth
termination_by sizeOf n
decreasing_by exact MbNode.sizeOf_lt_of_mem (MbNode.child_mem _h)

/-- The loop of `bitmap_detect_overlap_generic`. -/
def detectOverlapLoop (orgLimit : ℕ) (n : MbNode) (ip : α) (limit step mask finalMask : ℕ)
    (longest : Option NhiPtr) : Option (ℕ × Option NhiPtr) :=
  if limit = 0 then some (finalMask, longest)
  else do
    let stride := strideOf ip
    let limitInside := if STRIDE < limit then STRIDE else limit
    let (pos, mask) := findOverlapInNode n.internal stride mask limitInside
    let currMask := u8 (step * STRIDE + mask)
    let (finalMask, longest) ← (if pos ≠ -1 ∧ currMask < orgLimit then do
        let p ← pointerToNhi n pos.toNat
        some (currMask, some p)
      else some (finalMask, longest))
    if testBitmap n.external (countEnlBitmap stride) then do
      let c ← n.child (countEnlBitmap stride)
      detectOverlapLoop orgLimit c (lshift ip STRIDE) (limit - STRIDE) (u8 (step + 1)) mask
        finalMask longest
    else some (finalMask, longest)
termination_by limit
decreasing_by
  have := STRIDE_eq
  omega

/-- `bitmap_detect_overlap_generic`. -/
def detectOverlapGeneric (n : MbNode) (ip : α) (cidr bitsLimit : ℕ) : Option (ℕ × Option Nhi) := do
  let limit := if bitsLimit < cidr then bitsLimit else cidr
  let (finalMask, longest) ← detectOverlapLoop limit n ip limit 0 0 0 none
  if finalMask ≠ 0 then do
    let p ← longest
    let nhi ← p.deref
    some (finalMask, some nhi)
  else some (finalMask, none)

/-- The body of the first loop of `bitmap_mb_node_iter`. -/
def iterRule (orShifted : α → ℕ → ℕ → α) (node : MbNode) (ip : α) (leftBits curCidr : ℕ)
    (calls : List (Report α)) (cidr bit : ℕ) : Option (List (Report α)) :=
  let pos := countInlBitmap bit cidr
  if testBitmap node.internal pos then do
    let p ← pointerToNhi node pos
    let nhi ← p.deref
    let iptmp := orShifted ip bit (sub32 leftBits cidr)
    some (calls ++ [(iptmp, (curCidr + cidr) % 2 ^ 32, nhi)])
  else some calls

/-- `bitmap_mb_node_iter`. -/
def mbNodeIter (orShifted : α → ℕ → ℕ → α) (node : MbNode) (ip : α) (leftBits curCidr : ℕ) :
    Option (List (Report α)) := do
  let calls ← (List.range STRIDE).foldlM (fun calls cidr =>
    (List.range (2 ^ cidr)).foldlM (fun calls bit =>
      iterRule orShifted node ip leftBits curCidr calls cidr bit) calls) []
  (List.range (2 ^ STRIDE)).foldlM (fun calls stride =>
    let pos := countEnlBitmap stride
    if testBitmap node.external pos then
      match _h : node.child pos with
      | some next => do
          let more ← mbNodeIter orShifted next (orShifted ip stride (sub32 leftBits STRIDE))
            (sub32 leftBits STRIDE) ((curCidr + STRIDE) % 2 ^ 32)
          some (calls ++ more)
      | none => none
    else some calls) calls
termination_by sizeOf node
decreasing_by exact MbNode.sizeOf_lt_of_mem (MbNode.child_mem _h)

/-! ## `destroy_subtrie` -/

/-- The slot of a position, if it holds a next hop, is handed to `destroy_nhi` and cleared. -/
def destroyRule (destroyNhi : Bool) : MbNode × List Nhi → ℕ → Option (MbNode × List Nhi)
  | (node, calls), pos =>
      if testBitmap node.internal pos then do
        let p ← pointerToNhi node pos
        let nhi ← p.deref
        let node ← p.assign 0
        some (node, if destroyNhi ∧ nhi ≠ 0 then calls ++ [nhi] else calls)
      else some (node, calls)

/-- The first loop of `destroy_subtrie`. -/
def destroyRules (node : MbNode) (destroyNhi : Bool) : Option (MbNode × List Nhi) :=
  (List.range STRIDE).foldlM (fun st cidr =>
    (List.range (2 ^ cidr)).foldlM (fun st bit =>
      destroyRule destroyNhi st (countInlBitmap bit cidr)) st) (node, [])

/-- `destroy_subtrie`. -/
def destroySubtrie (m : Mm) (node : MbNode) (destroyNhi : Bool) (depth : ℕ) :
    Option (Mm × List Nhi) := do
  let (node', calls) ← destroyRules node destroyNhi
  let (m, calls) ← (List.range (2 ^ STRIDE)).foldlM (fun (m, calls) stride =>
    let pos := countEnlBitmap stride
    if testBitmap node.external pos then
      match _h : node.child pos with
      | some next => do
          let (m, more) ← destroySubtrie m next destroyNhi (depth + 1)
          some (m, calls ++ more)
      | none => none
    else some (m, calls)) (m, calls)
  let cntRules ← ruleNum node'
  let first ← pointSub node'.childPtr (upRule cntRules)
  let node' := MbNode.zero
  -- counted after the bitmap has been cleared
  let cntChildren := countChildren node'.external
  let m ← freeNode m first (upRule cntRules + upChild cntChildren) depth
  some (m, calls)
termination_by sizeOf node
decreasing_by exact MbNode.sizeOf_lt_of_mem (MbNode.child_mem _h)

/-! ## `bitmap_v4.h` -/

/-- `bitmap_insert_prefix`. -/
def bitmapInsertPrefix (node : MbNode) (m : Mm) (ip : IpV4) (cidr : ℕ) (nhi : Nhi) :
    Option (MbNode × Mm × ℤ) := insertPrefix m node ip cidr 0 nhi

/-- `bitmap_delete_prefix`. -/
def bitmapDeletePrefix (node : MbNode) (m : Mm) (ip : IpV4) (cidr : ℕ) (destroyNhi : Bool) :
    Option (MbNode × Mm × Bool × List Nhi) := deletePrefix m node ip cidr destroyNhi

/-- `bitmap_do_search`. -/
def bitmapDoSearch (n : MbNode) (ip : IpV4) : Option Nhi := doSearchLoop n ip none

/-- `bitmap_do_search_lazy`. -/
def bitmapDoSearchLazy (lazyMark : LazyMark) (n : MbNode) (ip : IpV4) : Option Nhi :=
  doSearchLazyLoop n ip lazyMark 0

/-- Stage 2 of `bitmap_do_search_lazy_batch`, for one lane. -/
def batchAnswer (st : BatchLanes) (i : ℕ) : Option Nhi :=
  let pos := treeFunction (st.n i).internal (st.stride i)
  if pos ≠ -1 then do
    let p ← pointerToNhi (st.n i) pos.toNat
    p.deref
  else lazyUnwind (st.lazyMark i) (st.travelDepth i)

/-- `bitmap_do_search_lazy_batch`.  Stage 1 reads no next hop and is that of the plain build. -/
def bitmapDoSearchLazyBatch (fuel : ℕ) (lazyMark : ℕ → LazyMark) (n : ℕ → MbNode) (ip : ℕ → IpV4)
    (ret : ℕ → Nhi) (cnt : ℕ) : Option (ℕ → Nhi) := do
  let st ← Run.whileLoop (fun st : BatchLanes => st.endcnt != (1#64 <<< cnt) - 1)
    (fun st => (List.range cnt).foldlM batchDescend st) fuel
    ⟨n, ip, fun i => strideOf (ip i), fun _ => 0, lazyMark, 0#64⟩
  (List.range cnt).foldlM (fun ret i => do
    let nhi ← batchAnswer st i
    some (Function.update ret i nhi)) ret

/-- `bitmap_detect_overlap_generic`. -/
def bitmapDetectOverlapGeneric (n : MbNode) (ip : IpV4) (cidr bitsLimit : ℕ) :
    Option (ℕ × Option Nhi) := detectOverlapGeneric n ip cidr bitsLimit

/-- `bitmap_mb_node_iter`. -/
def bitmapMbNodeIter (node : MbNode) (ip : IpV4) (leftBits curCidr : ℕ) :
    Option (List (Report IpV4)) := mbNodeIter orShiftedV4 node ip leftBits curCidr

/-- `bitmap_destroy_trie`. -/
def bitmapDestroyTrie (root : MbNode) (m : Mm) (destroyNhi : Bool) : Option (Mm × List Nhi) :=
  destroySubtrie m root destroyNhi 0

end CompressNhi

end TreeBitmap
