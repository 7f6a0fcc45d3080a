import TreeBitmap.Address
import TreeBitmap.MbNode
import TreeBitmap.Lib.Run

/-!
# The tree bitmap (`lib/bitmap.c`, `lib/bitmap_v4.c`, `lib/bitmap_v6.c`)

The two engines are one program, written out twice; here it is written once, over
an address type, and the functions of the two source files are its instances.

A node lives inside the block of its parent, so a pointer to it is a way to change
the parent.  `insert_prefix` and `traverse_branch` walk down and change the last
node only: they are recursions that put the changed child back into its slot.
`delete_prefix` keeps the nodes it passed in an array and walks back up through it:
the array is a list here, last node first, and `updateNodes` puts each changed
child back into its parent before it edits the parent.

`none` is a fault: a slot outside an array, or an index past `trace_node`,
`lazy_mark` or the level counters.

## Main definitions

* `insertPrefix`, `deletePrefix` — the updates.
* `doSearch`, `doSearchLazy` — the eager and the lazy lookup; `bitmapDoSearchLazyBatch` —
  many lazy lookups, one level at a time.
* `detectOverlapGeneric`, `traverseBranch`, `prefixExist` — what the front end
  asks.
* `destroySubtrie` — release everything.
* `mbNodeIter` — report every prefix.
-/

namespace TreeBitmap

open IpAddr (rshift lshift)

variable {α : Type} [IpAddr α]

/-- The leading `STRIDE` bits: `stride = ip >> (LENGTH - STRIDE)`. -/
def strideOf (ip : α) : ℕ := u8 (rshift ip (IpAddr.LENGTH α - STRIDE))

/-- The position of a short prefix: `count_inl_bitmap(ip >> (LENGTH - cidr), cidr)`. -/
def leafPos (ip : α) (cidr : ℕ) : ℕ :=
  let stride := u8 (rshift ip (IpAddr.LENGTH α - cidr))
  u8 (countInlBitmap stride cidr)

/-- `LEVEL`, and also `UPDATE_LEVEL`. -/
def LEVEL (α : Type) [IpAddr α] : ℕ := IpAddr.LENGTH α / STRIDE + 1

/-! ## Insert -/

/-- `bitmap_insert_prefix`: `1` if the prefix was there and got a new next hop, `0`
if it is new. -/
def insertPrefix (m : Mm) (node : MbNode) (ip : α) (cidr level : ℕ) (nhi : Nhi) :
    Option (MbNode × Mm × ℤ) :=
  if cidr < STRIDE then
    let pos := leafPos ip cidr
    if testBitmap node.internal pos then do
      let node ← (pointerToNhi node pos).assign nhi
      some (node, m, 1)
    else do
      let (node, m) ← extendRule m node pos level nhi
      some (node, m, 0)
  else do
    let pos := countEnlBitmap (strideOf ip)
    let (node, slot, m) ← (if testBitmap node.external pos then some (node, nextChild node pos, m)
      else extendChild m node level pos)
    let child ← load node.children slot
    let (child, m, ret) ←
      insertPrefix m child (lshift ip STRIDE) (cidr - STRIDE) (u8 (level + 1)) nhi
    let children ← store node.children slot child
    some ({ node with children := children }, m, ret)
termination_by cidr
decreasing_by
  have := STRIDE_eq
  omega

/-! ## Delete -/

/-- The way down of `bitmap_delete_prefix`: the filled part of `trace_node`, last
entry first.  The last node is the one that holds the prefix. -/
def deleteTrace (node : MbNode) (ip : α) (cidr : ℕ) (trace : List (MbNode × ℕ)) :
    Option (List (MbNode × ℕ)) :=
  if cidr < STRIDE then do
    guard (trace.length < LEVEL α)
    some ((node, leafPos ip cidr) :: trace)
  else do
    let pos := countEnlBitmap (strideOf ip)
    guard (trace.length < LEVEL α)
    let child ← node.child pos
    deleteTrace child (lshift ip STRIDE) (cidr - STRIDE) ((node, pos) :: trace)
termination_by cidr
decreasing_by
  have := STRIDE_eq
  omega

/-- The loop of `update_nodes` above its first round: `child` is the node just
handled, in its changed form, and `del` is `node_need_to_del`. -/
def updateParents (m : Mm) (child : MbNode) (del : Bool) :
    List (MbNode × ℕ) → Option (MbNode × Mm × Bool)
  | [] => some (child, m, del)
  | (node, pos) :: trace => do
      let node ← node.setChild pos child
      let (node, m) ← (if del then reduceChild m node pos trace.length else some (node, m))
      updateParents m node node.isEmpty trace

/-- `update_nodes`: the root as it is then, and whether it is empty. -/
def updateNodes (m : Mm) : List (MbNode × ℕ) → Option (MbNode × Mm × Bool)
  | [] => none
  | (node, pos) :: trace => do
      let (node, m) ← reduceRule m node pos trace.length
      updateParents m node node.isEmpty trace

/-- `bitmap_delete_prefix`, with the next hops given to `destroy_nhi`, which is
called if it is not `NULL`. -/
def deletePrefix (m : Mm) (node : MbNode) (ip : α) (cidr : ℕ) (destroyNhi : Bool) :
    Option (MbNode × Mm × Bool × List Nhi) := do
  let trace ← deleteTrace node ip cidr []
  let (last, pos) ← trace.head?
  let calls ← (if destroyNhi then do
      let nhi ← (pointerToNhi last pos).deref
      some [nhi]
    else some [])
  let (node, m, ret) ← updateNodes m trace
  some (node, m, ret, calls)

/-! ## Search -/

/-- `(longest == NULL) ? NULL : *longest`. -/
def derefLongest : Option NhiPtr → Option Nhi
  | none => some 0
  | some p => p.deref

/-- `bitmap_do_search`, with the local variable `longest`. -/
def doSearchLoop (n : MbNode) (ip : α) (longest : Option NhiPtr) : Option Nhi :=
  let stride := strideOf ip
  let pos := treeFunction n.internal stride
  let longest := if pos ≠ -1 then some (pointerToNhi n pos.toNat) else longest
  if testBitmap n.external (countEnlBitmap stride) then
    match _h : n.child (countEnlBitmap stride) with
    | some c => doSearchLoop c (lshift ip STRIDE) longest
    | none => none
  else derefLongest longest
termination_by sizeOf n
decreasing_by exact MbNode.sizeOf_lt_of_mem (MbNode.child_mem _h)

/-- `bitmap_do_search`. -/
def doSearch (n : MbNode) (ip : α) : Option Nhi := doSearchLoop n ip none

/-- The contents of the `lazy_mark` array. -/
abbrev LazyMark := ℕ → MbNode × ℕ

/-- The last loop of `bitmap_do_search_lazy`: back through the marks. -/
def lazyUnwind (lazyMark : LazyMark) : ℕ → Option Nhi
  | 0 => some 0
  | depth + 1 =>
      let (n, stride) := lazyMark depth
      let pos := treeFunction n.internal stride
      if pos ≠ -1 then (pointerToNhi n pos.toNat).deref else lazyUnwind lazyMark depth

/-- `bitmap_do_search_lazy`, where `depth` is `travel_depth + 1`. -/
def doSearchLazyLoop (n : MbNode) (ip : α) (lazyMark : LazyMark) (depth : ℕ) : Option Nhi :=
  let stride := strideOf ip
  if testBitmap n.external (countEnlBitmap stride) then
    if depth < LEVEL α then
      match _h : n.child (countEnlBitmap stride) with
      | some c =>
          doSearchLazyLoop c (lshift ip STRIDE) (Function.update lazyMark depth (n, stride))
            (depth + 1)
      | none => none
    else none
  else
    let pos := treeFunction n.internal stride
    if pos ≠ -1 then (pointerToNhi n pos.toNat).deref else lazyUnwind lazyMark depth
termination_by sizeOf n
decreasing_by exact MbNode.sizeOf_lt_of_mem (MbNode.child_mem _h)

/-- `bitmap_do_search_lazy`, on whatever the thread-local array holds. -/
def doSearchLazy (lazyMark : LazyMark) (n : MbNode) (ip : α) : Option Nhi :=
  doSearchLazyLoop n ip lazyMark 0

/-! ## Overlap -/

/-- The loop of `bitmap_detect_overlap_generic`: `final_mask` and `longest`. -/
def detectOverlapLoop (orgLimit : ℕ) (n : MbNode) (ip : α) (limit step mask finalMask : ℕ)
    (longest : Option NhiPtr) : Option (ℕ × Option NhiPtr) :=
  if limit = 0 then some (finalMask, longest)
  else
    let stride := strideOf ip
    let limitInside := if STRIDE < limit then STRIDE else limit
    let (pos, mask) := findOverlapInNode n.internal stride mask limitInside
    let currMask := u8 (step * STRIDE + mask)
    let (finalMask, longest) :=
      if pos ≠ -1 ∧ currMask < orgLimit then (currMask, some (pointerToNhi n pos.toNat))
      else (finalMask, longest)
    if testBitmap n.external (countEnlBitmap stride) then do
      let c ← n.child (countEnlBitmap stride)
      detectOverlapLoop orgLimit c (lshift ip STRIDE) (limit - STRIDE) (u8 (step + 1)) mask
        finalMask longest
    else some (finalMask, longest)
termination_by limit
decreasing_by
  have := STRIDE_eq
  omega

/-- `bitmap_detect_overlap_generic`: the returned mask, and what is written to
`*nhi_over`, if anything is. -/
def detectOverlapGeneric (n : MbNode) (ip : α) (cidr bitsLimit : ℕ) : Option (ℕ × Option Nhi) := do
  let limit := if bitsLimit < cidr then bitsLimit else cidr
  let (finalMask, longest) ← detectOverlapLoop limit n ip limit 0 0 0 none
  if finalMask ≠ 0 then do
    let p ← longest
    let nhi ← p.deref
    some (finalMask, some nhi)
  else some (finalMask, none)

/-! ## Branches -/

/-- The `type` argument of a `traverse_func`. -/
inductive NodeType
  | LEAF_NODE
  | MID_NODE
  deriving DecidableEq, Repr

/-- `TRAVERSE_CONT`. -/
def TRAVERSE_CONT : ℤ := 1

/-- `traverse_func`: it may change the node and its own data. -/
abbrev TraverseFunc (δ : Type) := MbNode → ℕ → ℕ → NodeType → δ → Option (ℤ × MbNode × δ)

/-- `bitmap_traverse_branch`. -/
def traverseBranch {δ : Type} (func : TraverseFunc δ) (node : MbNode) (ip : α) (cidr : ℕ)
    (userData : δ) : Option (ℤ × MbNode × δ) :=
  if cidr < STRIDE then
    func node (u8 (rshift ip (IpAddr.LENGTH α - cidr))) (leafPos ip cidr) .LEAF_NODE userData
  else do
    let stride := strideOf ip
    let pos := countEnlBitmap stride
    let (ret, node, userData) ← func node stride pos .MID_NODE userData
    if ret ≠ TRAVERSE_CONT then some (ret, node, userData)
    else do
      let child ← node.child pos
      let (ret, child, userData) ←
        traverseBranch func child (lshift ip STRIDE) (cidr - STRIDE) userData
      let node ← node.setChild pos child
      some (ret, node, userData)
termination_by cidr
decreasing_by
  have := STRIDE_eq
  omega

/-- `prefix_exist_func`. -/
def prefixExistFunc : TraverseFunc Unit := fun node _ pos type data =>
  match type with
  | .LEAF_NODE =>
      if ¬ testBitmap node.internal pos then some (0, node, data)
      else some (TRAVERSE_CONT, node, data)
  | .MID_NODE =>
      if ¬ testBitmap node.external pos then some (0, node, data)
      else some (TRAVERSE_CONT, node, data)

/-- `bitmap_prefix_exist`. -/
def prefixExist (n : MbNode) (ip : α) (cidr : ℕ) : Option ℤ := do
  let (ret, _, _) ← traverseBranch prefixExistFunc n ip cidr ()
  some ret

/-! ## Destroy -/

/-- The next hop at a position, if there is one, is handed to `destroy_nhi`, unless it
is `NULL`, and cleared. -/
def destroyRule (destroyNhi : Bool) : MbNode × List Nhi → ℕ → Option (MbNode × List Nhi)
  | (node, calls), pos =>
      if testBitmap node.internal pos then do
        let nhi ← (pointerToNhi node pos).deref
        let node ← (pointerToNhi node pos).assign 0
        some (node, if destroyNhi ∧ nhi ≠ 0 then calls ++ [nhi] else calls)
      else some (node, calls)

/-- The first loop of `destroy_subtrie`. -/
def destroyRules (node : MbNode) (destroyNhi : Bool) : Option (MbNode × List Nhi) :=
  (List.range STRIDE).foldlM (fun st cidr =>
    (List.range (2 ^ cidr)).foldlM (fun st bit =>
      destroyRule destroyNhi st (countInlBitmap bit cidr)) st) (node, [])

/-- `POINT(child_ptr) - units`.  Without a block there must not be any units. -/
def pointSub (childPtr : Option Ptr) (units : ℕ) : Option (Option Ptr) :=
  match childPtr with
  | some p => some (some (p.sub units))
  | none => if units = 0 then some none else none

/-- `destroy_subtrie`.  The node itself is zero afterwards and its children are in
the block just released, so that the counters and the calls are all there is to
return. -/
def destroySubtrie (m : Mm) (node : MbNode) (destroyNhi : Bool) (depth : ℕ) :
    Option (Mm × List Nhi) := do
  let (node', calls) ← destroyRules node destroyNhi
  let (m, calls) ← (List.range (2 ^ STRIDE)).foldlM (fun (m, calls) stride =>
    let pos := countEnlBitmap stride
    if testBitmap node.external pos then
      match _h : node.child pos with
      | some next => do
          let (m, more) ← destroySubtrie m next destroyNhi (depth + 1)
          some (m, calls ++ more)
      | none => none
    else some (m, calls)) (m, calls)
  let cntRules := countChildren node'.internal
  let first ← pointSub node'.childPtr (upRule cntRules)
  let node' := MbNode.zero
  -- counted after the bitmap has been cleared
  let cntChildren := countChildren node'.external
  let m ← freeNode m first (upRule cntRules + upChild cntChildren) depth
  some (m, calls)
termination_by sizeOf node
decreasing_by exact MbNode.sizeOf_lt_of_mem (MbNode.child_mem _h)

/-! ## Traversal -/

/-- Subtraction of `uint32_t`. -/
def sub32 (a b : ℕ) : ℕ := (a + 2 ^ 32 - b) % 2 ^ 32

/-- The arguments of a call for one prefix: its address, its length and its next hop. -/
abbrev Report (α : Type) := α × ℕ × Nhi

/-- The body of the first loop of `bitmap_mb_node_iter`, with the calls so far.
`orShifted ip bit n` is `ip | bit << n`. -/
def iterRule (orShifted : α → ℕ → ℕ → α) (node : MbNode) (ip : α) (leftBits curCidr : ℕ)
    (calls : List (Report α)) (cidr bit : ℕ) : Option (List (Report α)) :=
  let pos := countInlBitmap bit cidr
  if testBitmap node.internal pos then do
    let nhi ← (pointerToNhi node pos).deref
    let iptmp := orShifted ip bit (sub32 leftBits cidr)
    some (calls ++ [(iptmp, (curCidr + cidr) % 2 ^ 32, nhi)])
  else some calls

/-- `bitmap_mb_node_iter`, and `print_mb_node_iter`: the calls, in order. -/
def mbNodeIter (orShifted : α → ℕ → ℕ → α) (node : MbNode) (ip : α) (leftBits curCidr : ℕ) :
    Option (List (Report α)) := do
  let calls ← (List.range STRIDE).foldlM (fun calls cidr =>
    (List.range (2 ^ cidr)).foldlM (fun calls bit =>
      iterRule orShifted node ip leftBits curCidr calls cidr bit) calls) []
  (List.range (2 ^ STRIDE)).foldlM (fun calls stride =>
    let pos := countEnlBitmap stride
    if testBitmap node.external pos then
      match _h : node.child pos with
      | some next => do
          let more ← mbNodeIter orShifted next (orShifted ip stride (sub32 leftBits STRIDE))
            (sub32 leftBits STRIDE) ((curCidr + STRIDE) % 2 ^ 32)
          some (calls ++ more)
      | none => none
    else some calls) calls
termination_by sizeOf node
decreasing_by exact MbNode.sizeOf_lt_of_mem (MbNode.child_mem _h)

/-! ## `bitmap_v4.h` -/

/-- `bitmap_insert_prefix`. -/
def bitmapInsertPrefix (node : MbNode) (m : Mm) (ip : IpV4) (cidr : ℕ) (nhi : Nhi) :
    Option (MbNode × Mm × ℤ) := insertPrefix m node ip cidr 0 nhi

/-- `bitmap_delete_prefix`. -/
def bitmapDeletePrefix (node : MbNode) (m : Mm) (ip : IpV4) (cidr : ℕ) (destroyNhi : Bool) :
    Option (MbNode × Mm × Bool × List Nhi) := deletePrefix m node ip cidr destroyNhi

/-- `bitmap_do_search`. -/
def bitmapDoSearch (n : MbNode) (ip : IpV4) : Option Nhi := doSearch n ip

/-- `bitmap_do_search_lazy`. -/
def bitmapDoSearchLazy (lazyMark : LazyMark) (n : MbNode) (ip : IpV4) : Option Nhi :=
  doSearchLazy lazyMark n ip

/-- `BATCH`. -/
def BATCH : ℕ := 32

/-- The arrays of `bitmap_do_search_lazy_batch`, with the two arguments that it changes in
place, and its thread-local marks. -/
structure BatchLanes where
  n : ℕ → MbNode
  ip : ℕ → IpV4
  stride : ℕ → ℕ
  travelDepth : ℕ → ℕ
  lazyMark : ℕ → LazyMark
  endcnt : BitVec 64

/-- The inner loop of stage 1, for one lane: down to the next node, or done. -/
def batchDescend (st : BatchLanes) (i : ℕ) : Option BatchLanes := do
  guard (i < BATCH)
  let n := st.n i
  let stride := st.stride i
  if testBitmap n.external (countEnlBitmap stride) then do
    let depth := st.travelDepth i
    guard (depth < LEVEL IpV4)
    let c ← n.child (countEnlBitmap stride)
    let ip := lshift (st.ip i) STRIDE
    some {
      n := Function.update st.n i c
      ip := Function.update st.ip i ip
      stride := Function.update st.stride i (strideOf ip)
      travelDepth := Function.update st.travelDepth i (depth + 1)
      lazyMark := Function.update st.lazyMark i
        (Function.update (st.lazyMark i) depth (n, stride))
      endcnt := st.endcnt }
  else some { st with endcnt := st.endcnt ||| 1#64 <<< i }

/-- Stage 2, for one lane: what goes to `ret[i]`. -/
def batchAnswer (st : BatchLanes) (i : ℕ) : Option Nhi :=
  let pos := treeFunction (st.n i).internal (st.stride i)
  if pos ≠ -1 then (pointerToNhi (st.n i) pos.toNat).deref
  else lazyUnwind (st.lazyMark i) (st.travelDepth i)

/-- `bitmap_do_search_lazy_batch`: the array `ret`, after at most `fuel` tests of the
condition of stage 1. -/
def bitmapDoSearchLazyBatch (fuel : ℕ) (lazyMark : ℕ → LazyMark) (n : ℕ → MbNode) (ip : ℕ → IpV4)
    (ret : ℕ → Nhi) (cnt : ℕ) : Option (ℕ → Nhi) := do
  let st ← Run.whileLoop (fun st : BatchLanes => st.endcnt != (1#64 <<< cnt) - 1)
    (fun st => (List.range cnt).foldlM batchDescend st) fuel
    ⟨n, ip, fun i => strideOf (ip i), fun _ => 0, lazyMark, 0#64⟩
  (List.range cnt).foldlM (fun ret i => do
    let nhi ← batchAnswer st i
    some (Function.update ret i nhi)) ret

/-- `bitmap_detect_overlap_generic`. -/
def bitmapDetectOverlapGeneric (n : MbNode) (ip : IpV4) (cidr bitsLimit : ℕ) :
    Option (ℕ × Option Nhi) := detectOverlapGeneric n ip cidr bitsLimit

/-- `bitmap_prefix_exist`. -/
def bitmapPrefixExist (n : MbNode) (ip : IpV4) (cidr : ℕ) : Option ℤ := prefixExist n ip cidr

/-- `bitmap_destroy_trie`. -/
def bitmapDestroyTrie (root : MbNode) (m : Mm) (destroyNhi : Bool) : Option (Mm × List Nhi) :=
  destroySubtrie m root destroyNhi 0

/-- `ip |= bit << n`, on a `uint32_t`. -/
def orShiftedV4 (ip : IpV4) (bit n : ℕ) : IpV4 := ip ||| shl (BitVec.ofNat 32 bit) n

/-- `bitmap_mb_node_iter`: the calls of `trie_traverse_func`. -/
def bitmapMbNodeIter (node : MbNode) (ip : IpV4) (leftBits curCidr : ℕ) :
    Option (List (Report IpV4)) := mbNodeIter orShiftedV4 node ip leftBits curCidr

/-- `bitmap_print_all_prefix`: the arguments of the calls of `print_ptr`. -/
def bitmapPrintAllPrefix (root : MbNode) : Option (List (Report IpV4)) :=
  bitmapMbNodeIter root 0 LENGTH 0

/-! ## `bitmap_v6.h` -/

/-- `bitmapv6_insert_prefix`. -/
def bitmapv6InsertPrefix (node : MbNode) (m : Mm) (ip : IpV6) (cidr : ℕ) (nhi : Nhi) :
    Option (MbNode × Mm × ℤ) := insertPrefix m node ip cidr 0 nhi

/-- `bitmapv6_delete_prefix`. -/
def bitmapv6DeletePrefix (node : MbNode) (m : Mm) (ip : IpV6) (cidr : ℕ) (destroyNhi : Bool) :
    Option (MbNode × Mm × Bool × List Nhi) := deletePrefix m node ip cidr destroyNhi

/-- `bitmapv6_do_search`. -/
def bitmapv6DoSearch (n : MbNode) (ip : IpV6) : Option Nhi := doSearch n ip

/-- `bitmapv6_do_search_lazy`. -/
def bitmapv6DoSearchLazy (lazyMark : LazyMark) (n : MbNode) (ip : IpV6) : Option Nhi :=
  doSearchLazy lazyMark n ip

/-- `bitmapv6_detect_overlap_generic`. -/
def bitmapv6DetectOverlapGeneric (n : MbNode) (ip : IpV6) (cidr bitsLimit : ℕ) :
    Option (ℕ × Option Nhi) := detectOverlapGeneric n ip cidr bitsLimit

/-- `bitmapv6_prefix_exist`. -/
def bitmapv6PrefixExist (n : MbNode) (ip : IpV6) (cidr : ℕ) : Option ℤ := prefixExist n ip cidr

/-- `bitmapv6_destroy_trie`. -/
def bitmapv6DestroyTrie (root : MbNode) (m : Mm) (destroyNhi : Bool) : Option (Mm × List Nhi) :=
  destroySubtrie m root destroyNhi 0

/-- The "ugly code" of `print_mb_node_iter`: `stride_bits`, shifted by `lshift_ipv6`, is
or-ed to the address. -/
def orShiftedV6 (ip : IpV6) (bit n : ℕ) : IpV6 :=
  let strideBits := lshiftIpv6 ⟨0, BitVec.ofNat 64 bit⟩ (u8 n)
  ⟨ip.iphi ||| strideBits.iphi, ip.iplo ||| strideBits.iplo⟩

/-- `bitmapv6_print_all_prefix`: the arguments of the calls of `print_ptr`. -/
def bitmapv6PrintAllPrefix (n : MbNode) : Option (List (Report IpV6)) :=
  mbNodeIter orShiftedV6 n ⟨0, 0⟩ LENGTH_v6 0

end TreeBitmap
