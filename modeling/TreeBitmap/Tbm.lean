import TreeBitmap.Bitmap

/-!
# The leaf-pushed front end (`tbm/tbmv4.c`, `tbm/tbmv6.c`)

The first 13 bits of an address index a table.  An entry is a union of a next-hop
pointer and a trie node, told apart by a flag; the flag word also holds the length
of the longest prefix of up to 13 bits that covers the entry.  Such a prefix is
pushed down into every entry it covers, as the pointer of the entry or as the empty
prefix of its trie.  A second trie, `up_aux`, holds all prefixes as they were
given, to find out what a deleted prefix had been hiding.

The union is the node alone here: the pointer occupies its first word, `external`.

As in the tries below, the two engines are one program over an address type,
except for `tbmv6_search` and `tbmv6_destroy_trie`, which differ from their IPv4
counterparts and are written out.

## Main definitions

* `InitNode`, `TbmTrie` — the table and the engine.
* `tbmInsert`, `tbmDelete` — the updates.
* `tbmSearch`, `tbmv6Search`, `tbmDestroyTrie`, `tbmv6DestroyTrie`.
-/

namespace TreeBitmap

open IpAddr (rshift lshift)

/-- `INITIAL_BITS`, and also `INITIAL_BITS_v6`. -/
def INITIAL_BITS : ℕ := 13

/-- `INIT_HAS_A_CHILD`. -/
def INIT_HAS_A_CHILD : BitVec 32 := 1

/-- `PREFIX_HI`. -/
def PREFIX_HI : ℕ := 16

/-- `struct init_node`, with the node of the union `init_entry`. -/
structure InitNode where
  flags : BitVec 32
  node : MbNode

/-- What `calloc` leaves. -/
def InitNode.zero : InitNode := ⟨0, MbNode.zero⟩

/-- `e.ptr`, which overlays the first word of `e.node`. -/
def InitNode.ptr (n : InitNode) : Nhi := n.node.external

/-- `e.ptr = nhi`. -/
def InitNode.setPtr (n : InitNode) (nhi : Nhi) : InitNode :=
  { n with node := { n.node with external := nhi } }

/-- `flags & INIT_HAS_A_CHILD`. -/
def InitNode.hasChild (n : InitNode) : Bool := n.flags &&& INIT_HAS_A_CHILD != 0#32

/-- `flags >> PREFIX_HI`. -/
def InitNode.prefixHi (n : InitNode) : ℕ := (n.flags >>> PREFIX_HI).toNat

/-- `cidr << PREFIX_HI`. -/
def prefixFlags (cidr : ℕ) : BitVec 32 := BitVec.ofNat 32 cidr <<< PREFIX_HI

/-- The init table. -/
abbrev InitTable := Fin (2 ^ INITIAL_BITS) → InitNode

/-- `struct tbm_trie` and `struct tbmv6_trie`. -/
structure TbmTrie where
  init : InitTable
  m : Mm
  upAux : MbNode
  upM : Mm

/-- `tbm_init_trie`, `tbmv6_init_trie`.  Both managers use `MEM_ALLOC_SIMPLE`. -/
def tbmInitTrie : TbmTrie := ⟨fun _ => .zero, mmInit simple, .zero, mmInit simple⟩

/-- An index into the table.  `none` is a read past its end. -/
def initIndex (index : ℕ) : Option (Fin (2 ^ INITIAL_BITS)) :=
  if h : index < 2 ^ INITIAL_BITS then some ⟨index, h⟩ else none

/-- The trie after an entry has been rewritten. -/
def TbmTrie.setEntry (trie : TbmTrie) (x : Fin (2 ^ INITIAL_BITS)) (e : InitNode) (m : Mm) :
    TbmTrie := { trie with init := Function.update trie.init x e, m := m }

section Updates

variable {α : Type} [IpAddr α]

/-- `ip >> (LENGTH - INITIAL_BITS)`, as a `uint32_t`. -/
def indexOf (ip : α) : ℕ := rshift ip (IpAddr.LENGTH α - INITIAL_BITS) % 2 ^ 32

variable (α) in
/-- One round of the loop of `tbm_insert_prefix`: push a prefix of up to
`INITIAL_BITS` bits into an entry. -/
def insertEntry (e : InitNode) (m : Mm) (cidr : ℕ) (nhi : Nhi) : Option (InitNode × Mm) :=
  if e.hasChild then
    if cidr < e.prefixHi then some (e, m)
    else do
      let e := { e with flags := prefixFlags cidr ||| INIT_HAS_A_CHILD }
      let (node, m, _) ← insertPrefix m e.node (IpAddr.zero : α) 0 0 nhi
      some ({ e with node := node }, m)
  else
    if cidr < e.prefixHi then some (e, m)
    else
      let e := { e with flags := prefixFlags cidr }
      some (e.setPtr nhi, m)

/-- The loop of `tbm_insert_prefix`, over the entries that a short prefix covers. -/
def insertSweep (trie : TbmTrie) (ip : α) (cidr : ℕ) (nhi : Nhi) : Option TbmTrie :=
  let index := indexOf ip
  (List.range (1 <<< (INITIAL_BITS - cidr))).foldlM (fun (trie : TbmTrie) i => do
    let x ← initIndex (index + i)
    let (e, m) ← insertEntry α (trie.init x) trie.m cidr nhi
    some (trie.setEntry x e m)) trie

/-- The other branch of `tbm_insert_prefix`: a longer prefix goes into the trie of
its entry, which may have to be made out of a pointer first. -/
def insertChild (e : InitNode) (m : Mm) (ip : α) (cidr : ℕ) (nhi : Nhi) :
    Option (InitNode × Mm) :=
  if e.hasChild then do
    let (node, m, _) ←
      insertPrefix m e.node (lshift ip INITIAL_BITS) (cidr - INITIAL_BITS) 0 nhi
    some ({ e with node := node }, m)
  else do
    let (e, m) ← (if 0 < e.prefixHi then do
        let info := e.ptr
        let e := e.setPtr 0
        let (node, m, _) ← insertPrefix m e.node (IpAddr.zero : α) 0 0 info
        some ({ e with node := node }, m)
      else some (e, m))
    let e := { e with flags := e.flags ||| INIT_HAS_A_CHILD }
    let (node, m, _) ←
      insertPrefix m e.node (lshift ip INITIAL_BITS) (cidr - INITIAL_BITS) 0 nhi
    some ({ e with node := node }, m)

/-- `tbm_insert_prefix`, with its return value. -/
def tbmInsert (trie : TbmTrie) (ip : α) (cidr : ℕ) (nhi : Nhi) : Option (TbmTrie × ℤ) :=
  let index := indexOf ip
  if cidr = 0 then some (trie, -1)
  else do
    let trie ← (if cidr ≤ INITIAL_BITS then insertSweep trie ip cidr nhi
      else do
        let x ← initIndex index
        let (e, m) ← insertChild (trie.init x) trie.m ip cidr nhi
        some (trie.setEntry x e m))
    let (upAux, upM, _) ← insertPrefix trie.upM trie.upAux ip cidr 0 nhi
    some ({ trie with upAux := upAux, upM := upM }, 0)

/-- `struct overlap_nhi_data`, with the next hops given to `func`. -/
structure OverlapNhiData where
  func : Bool
  nhiNear : Nhi
  calls : List Nhi

/-- `overlap_nhi`. -/
def overlapNhi : TraverseFunc OverlapNhiData := fun node _ pos type ond =>
  match type with
  | .LEAF_NODE => do
      let nhi ← (pointerToNhi node pos).deref
      let node ← (pointerToNhi node pos).assign ond.nhiNear
      some (TRAVERSE_CONT, node,
        { ond with calls := if ond.func then ond.calls ++ [nhi] else ond.calls })
  | .MID_NODE => some (TRAVERSE_CONT, node, ond)

variable (α) in
/-- One round of the loop of `tbm_delete_prefix`: take a prefix of up to
`INITIAL_BITS` bits out of an entry.  Also returned are what `destroy_nhi` is then,
and what it was called with. -/
def deleteEntry (e : InitNode) (m : Mm) (cidr prefixNear : ℕ) (nhiNear : Nhi)
    (destroyNhi : Bool) : Option (InitNode × Mm × Bool × List Nhi) :=
  let prefixLen := u8 e.prefixHi
  if e.hasChild then
    if cidr < prefixLen then some (e, m, destroyNhi, [])
    else if prefixNear = 0 then do
      let (node, m, ret, calls) ← deletePrefix m e.node (IpAddr.zero : α) 0 destroyNhi
      let e := { e with node := node }
      if ¬ ret then some ({ e with flags := 0 ||| INIT_HAS_A_CHILD }, m, false, calls)
      else
        let e := { e with flags := 0 }
        some (e.setPtr 0, m, false, calls)
    else do
      let e := { e with flags := prefixFlags prefixNear ||| INIT_HAS_A_CHILD }
      let (_, node, ond) ←
        traverseBranch overlapNhi e.node (IpAddr.zero : α) 0 ⟨destroyNhi, nhiNear, []⟩
      some ({ e with node := node }, m, false, ond.calls)
  else
    if cidr < prefixLen then some (e, m, destroyNhi, [])
    else
      let calls := if destroyNhi then [e.ptr] else []
      if prefixNear = 0 then
        let e := { e with flags := 0 }
        some (e.setPtr 0, m, false, calls)
      else
        let e := { e with flags := prefixFlags prefixNear }
        some (e.setPtr nhiNear, m, false, calls)

/-- The loop of `tbm_delete_prefix`, over the entries that a short prefix covers. -/
def deleteSweep (trie : TbmTrie) (ip : α) (cidr prefixNear : ℕ) (nhiNear : Nhi)
    (destroyNhi : Bool) : Option (TbmTrie × Bool × List Nhi) :=
  let index := indexOf ip
  (List.range (1 <<< (INITIAL_BITS - cidr))).foldlM
    (fun ((trie, destroyNhi, calls) : TbmTrie × Bool × List Nhi) i => do
      let x ← initIndex (index + i)
      let (e, m, destroyNhi, more) ←
        deleteEntry α (trie.init x) trie.m cidr prefixNear nhiNear destroyNhi
      some (trie.setEntry x e m, destroyNhi, calls ++ more)) (trie, destroyNhi, [])

/-- The other branch of `tbm_delete_prefix`: take a longer prefix out of the trie of
its entry. -/
def deleteChild (e : InitNode) (m : Mm) (upAux : MbNode) (ip : α) (cidr : ℕ)
    (destroyNhi : Bool) : Option (InitNode × Mm × List Nhi) :=
  if e.hasChild then do
    let (node, m, ret, calls) ←
      deletePrefix m e.node (lshift ip INITIAL_BITS) (cidr - INITIAL_BITS) destroyNhi
    let e := { e with node := node }
    if ret then do
      let (prefixNear, nhiOver) ← detectOverlapGeneric upAux ip cidr INITIAL_BITS
      if prefixNear = 0 then
        let e := { e with flags := 0 }
        some (e.setPtr 0, m, calls)
      else
        let e := { e with flags := prefixFlags prefixNear }
        some (e.setPtr (nhiOver.getD 0), m, calls)
    else some (e, m, calls)
  else some (e, m, [])

/-- `tbm_delete_prefix`, with its return value and the next hops given to
`destroy_nhi`. -/
def tbmDelete (trie : TbmTrie) (ip : α) (cidr : ℕ) (destroyNhi : Bool) :
    Option (TbmTrie × ℤ × List Nhi) :=
  let index := indexOf ip
  if cidr = 0 then some (trie, -1, [])
  else do
    let (trie, calls) ← (if cidr ≤ INITIAL_BITS then do
        let (prefixNear, nhiOver) ← detectOverlapGeneric trie.upAux ip cidr INITIAL_BITS
        let nhiNear := nhiOver.getD 0
        let (trie, _, calls) ← deleteSweep trie ip cidr prefixNear nhiNear destroyNhi
        some (trie, calls)
      else do
        let x ← initIndex index
        let (e, m, calls) ← deleteChild (trie.init x) trie.m trie.upAux ip cidr destroyNhi
        some (trie.setEntry x e m, calls))
    let (upAux, upM, _, _) ← deletePrefix trie.upM trie.upAux ip cidr false
    some ({ trie with upAux := upAux, upM := upM }, 0, calls)

end Updates

/-! ## Search -/

/-- `tbm_search`. -/
def tbmSearch (lazyMark : LazyMark) (trie : TbmTrie) (ip : IpV4) : Option Nhi := do
  let x ← initIndex (shr ip (LENGTH - INITIAL_BITS)).toNat
  let n := trie.init x
  if n.hasChild then bitmapDoSearchLazy lazyMark n.node (shl ip INITIAL_BITS)
  else some n.ptr

/-- `tbmv6_search`.  Both shifts change `ip` in place. -/
def tbmv6Search (lazyMark : LazyMark) (trie : TbmTrie) (ip : IpV6) : Option Nhi := do
  let ip := rshiftIpv6 ip (LENGTH_v6 - INITIAL_BITS)
  let x ← initIndex ip.iplo.toNat
  let n := trie.init x
  let ip := lshiftIpv6 ip INITIAL_BITS
  if n.hasChild then bitmapv6DoSearchLazy lazyMark n.node ip
  else some n.ptr

/-! ## Batched search -/

/-- The uninitialized local arrays of `tbm_search_batch`. -/
structure BatchLocals where
  node : ℕ → InitNode
  mbN : ℕ → MbNode
  mbIp : ℕ → IpV4
  mbRet : ℕ → Nhi

/-- The second loop of `tbm_search_batch`, for one address: into the arrays for the tries,
or answered from its entry. -/
def batchSplit (node : ℕ → InitNode) (ip : ℕ → IpV4) :
    (ℕ → Nhi) × BatchLocals × ℕ → ℕ → Option ((ℕ → Nhi) × BatchLocals × ℕ)
  | (ret, locals, mbCnt), i =>
      if (node i).hasChild then
        some (ret, { locals with
          mbIp := Function.update locals.mbIp mbCnt (shl (ip i) INITIAL_BITS)
          mbN := Function.update locals.mbN mbCnt (node i).node }, mbCnt + 1)
      else some (Function.update ret i (node i).ptr, locals, mbCnt)

/-- The last loop of `tbm_search_batch`, for one address. -/
def batchScatter (node : ℕ → InitNode) (mbRet : ℕ → Nhi) :
    (ℕ → Nhi) × ℕ → ℕ → Option ((ℕ → Nhi) × ℕ)
  | (ret, j), i =>
      if (node i).hasChild then some (Function.update ret i (mbRet j), j + 1) else some (ret, j)

/-- `tbm_search_batch`: the array `ret`. -/
def tbmSearchBatch (fuel : ℕ) (lazyMark : ℕ → LazyMark) (locals : BatchLocals) (trie : TbmTrie)
    (ip : ℕ → IpV4) (ret : ℕ → Nhi) (cnt : ℕ) : Option (ℕ → Nhi) := do
  let node ← (List.range cnt).foldlM (fun node i => do
    guard (i < BATCH)
    let x ← initIndex (shr (ip i) (LENGTH - INITIAL_BITS)).toNat
    some (Function.update node i (trie.init x))) locals.node
  let (ret, locals, mbCnt) ← (List.range cnt).foldlM (batchSplit node ip) (ret, locals, 0)
  let mbRet ← bitmapDoSearchLazyBatch fuel lazyMark locals.mbN locals.mbIp locals.mbRet mbCnt
  let (ret, _) ← (List.range cnt).foldlM (batchScatter node mbRet) (ret, 0)
  some ret

/-! ## Destroy -/

/-- What `tbm_destroy_trie` leaves and does: the two memory managers, the calls of
`destroy_nhi`, and the entries it applied `destroy_subtrie` to. -/
structure Destroyed where
  m : Mm
  upM : Mm
  calls : List Nhi
  visited : List (Fin (2 ^ INITIAL_BITS))

/-- The loop of `tbm_destroy_trie`, over all entries but those it skips. -/
def destroyEntries (skip : InitNode → Bool) (trie : TbmTrie) :
    Option (Mm × List (Fin (2 ^ INITIAL_BITS))) :=
  (List.range (2 ^ INITIAL_BITS)).foldlM
    (fun ((m, visited) : Mm × List (Fin (2 ^ INITIAL_BITS))) i => do
      let x ← initIndex i
      if skip (trie.init x) then some (m, visited)
      else do
        let (m, _) ← destroySubtrie m (trie.init x).node false 0
        some (m, visited ++ [x])) (trie.m, [])

/-- `tbm_destroy_trie` and `tbmv6_destroy_trie`, up to the test by which they skip
an entry. -/
def destroyTrie (skip : InitNode → Bool) (trie : TbmTrie) (destroyNhi : Bool) :
    Option Destroyed := do
  let (upM, calls) ← destroySubtrie trie.upM trie.upAux destroyNhi 0
  let (m, visited) ← destroyEntries skip trie
  some ⟨m, upM, calls, visited⟩

/-! ## `tbmv4.h` -/

/-- `tbm_insert_prefix`. -/
def tbmInsertPrefix (trie : TbmTrie) (ip : IpV4) (cidr : ℕ) (nhi : Nhi) : Option (TbmTrie × ℤ) :=
  tbmInsert trie ip cidr nhi

/-- `tbm_delete_prefix`. -/
def tbmDeletePrefix (trie : TbmTrie) (ip : IpV4) (cidr : ℕ) (destroyNhi : Bool) :
    Option (TbmTrie × ℤ × List Nhi) := tbmDelete trie ip cidr destroyNhi

/-- `tbm_prefix_exist`. -/
def tbmPrefixExist (trie : TbmTrie) (ip : IpV4) (cidr : ℕ) : Option ℤ :=
  prefixExist trie.upAux ip cidr

/-- `tbm_destroy_trie`. -/
def tbmDestroyTrie (trie : TbmTrie) (destroyNhi : Bool) : Option Destroyed :=
  destroyTrie (fun e => !e.hasChild) trie destroyNhi

/-- `tbm_print_all_prefix`. -/
def tbmPrintAllPrefix (trie : TbmTrie) : Option (List (Report IpV4)) :=
  bitmapPrintAllPrefix trie.upAux

/-! ## `tbmv6.h` -/

/-- `tbmv6_insert_prefix`. -/
def tbmv6InsertPrefix (trie : TbmTrie) (ip : IpV6) (cidr : ℕ) (nhi : Nhi) : Option TbmTrie := do
  let (trie, _) ← tbmInsert trie ip cidr nhi
  some trie

/-- `tbmv6_delete_prefix`. -/
def tbmv6DeletePrefix (trie : TbmTrie) (ip : IpV6) (cidr : ℕ) (destroyNhi : Bool) :
    Option (TbmTrie × List Nhi) := do
  let (trie, _, calls) ← tbmDelete trie ip cidr destroyNhi
  some (trie, calls)

/-- `tbmv6_prefix_exist`. -/
def tbmv6PrefixExist (trie : TbmTrie) (ip : IpV6) (cidr : ℕ) : Option ℤ :=
  prefixExist trie.upAux ip cidr

/-- `tbmv6_destroy_trie`. -/
def tbmv6DestroyTrie (trie : TbmTrie) (destroyNhi : Bool) : Option Destroyed :=
  destroyTrie (fun e => e.flags == 0) trie destroyNhi

/-- `tbmv6_print_all_prefix`. -/
def tbmv6PrintAllPrefix (trie : TbmTrie) : Option (List (Report IpV6)) :=
  bitmapv6PrintAllPrefix trie.upAux

end TreeBitmap
