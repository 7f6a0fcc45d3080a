import TreeBitmap.Savings
import TreeBitmap.Leftovers

/-!
# The books of the `COMPRESS_NHI` build

A node of the `COMPRESS_NHI` build has a block for its children, the mask and the slots.  The first
next hop of a node asks for one word and uses two, which is one unit either way.  So every block
that is given back has the size it was asked for, and in a run of harmless updates the counters
show what the nodes need, modulo `2 ^ 32`.  The mask may cost a node one unit more than the plain
build; the slots never do.

## Main definitions

* `wordCount c`, `units c`, `own`, `blocks` — what the nodes of this build need.
* `Renewed` — an edit of a node; `Rebuilt` — an update of a trie.
* `insertPrefix_rebuilt`, `deletePrefix_rebuilt` — the operations.
* `bitmap_run_slotBooks` — **the counters after any run of harmless updates**.
* `slotFootprint T` — what a map needs; `bitmap_load_slotBooks` — **the counters after a sorted
  load**.
-/

namespace TreeBitmap

namespace CompressNhi

open BitString LongestMatch Ranked Ledger
open IpAddr (lshift)

variable {α : Type} [IpAddr α] {m m₀ m₁ m' : Mm} {c c' n d root : MbNode} {f : ℕ → Option Nhi}
  {mask : Bitmap} {w level pos i k : ℕ} {nhi : Nhi}

/-! ## What a node needs -/

/-- The words of a node: the mask and the slots, or nothing. -/
def wordCount (c : MbNode) : ℕ := if c.internal = 0#64 then 0 else (owners c).card + 1

/-- The size of a node's block in units. -/
def units (c : MbNode) : ℕ := upChild (countChildren c.external) + upRule (wordCount c)

/-- The base of the block at a pointer with `k` words before it. -/
def baseOf (ptr : Option Ptr) (k : ℕ) : Option Ptr := ptr.map fun p => p.sub (upRule k)

/-- The block of a node. -/
def own (level : ℕ) (c : MbNode) : Multiset Block :=
  granted (baseOf c.childPtr (wordCount c)) (units c) level

/-- The blocks of a trie. -/
def blocks : ℕ → MbNode → Multiset Block := MbNode.collect own

theorem blocks_eq (level : ℕ) (c : MbNode) : blocks level c = own level c + c.inner own level :=
  collect_eq_inner

@[simp] theorem blocks_zero (level : ℕ) : blocks level .zero = 0 := by
  rw [blocks_eq, inner_zero]
  rfl

/-- `rule_num` is the number of words. -/
theorem wordCount_of_ruleNum (h : ruleNum c = some k) : wordCount c = k := by
  rw [ruleNum] at h
  by_cases hzero : c.internal = 0#64
  · rw [if_neg (not_not.mpr hzero)] at h
    rw [wordCount, if_pos hzero]
    exact Option.some.inj h
  · rw [if_pos hzero] at h
    obtain ⟨mask, hmask, h⟩ := Option.bind_eq_some_iff.mp h
    rw [wordCount, if_neg hzero, owners_of_getInlMask hzero hmask, ← countChildren_eq_card]
    exact Option.some.inj h

theorem wordCount_of_ne (h : c.internal ≠ 0#64) : wordCount c = (owners c).card + 1 := if_neg h

/-! ## New and old blocks -/

theorem newNode_trades (hok : m.Succeeds) (hlevel : level < MAX_LEVEL) {mbCnt nhCnt : ℕ}
    {r : Region} (h : newNode m mbCnt nhCnt level = some (r, m')) :
    (r.ptr = none → upChild mbCnt + upRule nhCnt = 0) ∧
      mmBook.Trades m m' 0 (granted (baseOf r.ptr nhCnt) (upChild mbCnt + upRule nhCnt) level) := by
  obtain ⟨ret, m₁, halloc, -, -, hnull, -, htrade⟩ :=
    allocNode_spec hok (upChild mbCnt + upRule nhCnt) hlevel
  rw [newNode, halloc, Option.bind_eq_bind, Option.bind_some] at h
  cases ret with
  | none =>
      obtain ⟨rfl, rfl⟩ := Prod.mk.inj (Option.some.inj h)
      exact ⟨fun _ => hnull rfl, htrade⟩
  | some p =>
      obtain ⟨rfl, rfl⟩ := Prod.mk.inj (Option.some.inj h)
      have hbase : baseOf (some { p with off := p.off + upRule nhCnt }) nhCnt = some p := by
        simp [baseOf, Ptr.sub]
      exact ⟨by simp, hbase ▸ htrade⟩

theorem freeOld_trades (hlevel : level < MAX_LEVEL) {ruleNum childNum : ℕ}
    (h : freeOld m c ruleNum childNum level = some m') :
    mmBook.Trades m m'
      (granted (baseOf c.childPtr ruleNum) (upChild childNum + upRule ruleNum) level) 0 := by
  rw [freeOld] at h
  rcases hp : c.childPtr with _ | p
  · rw [hp] at h
    obtain rfl := Option.some.inj h
    exact Book.Trades.refl m 0
  · rw [hp] at h
    obtain ⟨m₁, hfree, -, -, htrade⟩ := deallocNode_spec m (upChild childNum + upRule ruleNum)
      hlevel (p.sub (upRule ruleNum))
    obtain rfl := Option.some.inj (hfree.symm.trans h)
    exact htrade

/-- The node has a block, if it needs one. -/
def HasBlock (c : MbNode) : Prop := c.childPtr = none → units c = 0

/-- An edit exchanges the block of a node, and leaves it one if it needs one. -/
structure Renewed (level : ℕ) (m m' : Mm) (c c' : MbNode) : Prop where
  trades : mmBook.Trades m m' (own level c) (own level c')
  hasBlock : HasBlock c → HasBlock c'

/-- An edit that keeps the block. -/
theorem renewed_of_eq (hptr : c'.childPtr = c.childPtr) (hext : c'.external = c.external)
    (hwords : wordCount c' = wordCount c) : Renewed level m m c c' := by
  have hunits : units c' = units c := by rw [units, units, hext, hwords]
  refine ⟨?_, fun h hnone => ?_⟩
  · rw [own, own, hptr, hunits, hwords]
    exact Book.Trades.refl m _
  · rw [hunits]
    exact h (hptr ▸ hnone)

/-- **An edit with a new block**: the old one is given back as the node had it, and the new one has
room for just what the new node needs. -/
theorem renewed_of_newNode (hok : m.Succeeds) (hlevel : level < MAX_LEVEL)
    {mbCnt nhCnt ruleNum : ℕ} {r : Region} (hnew : newNode m mbCnt nhCnt level = some (r, m₁))
    {d : MbNode} (hfree : freeOld m₁ d ruleNum (countChildren c.external) level = some m')
    (hd : d.childPtr = c.childPtr) (hold : wordCount c = ruleNum) (hptr : c'.childPtr = r.ptr)
    (hkids : countChildren c'.external = mbCnt) (hwords : upRule (wordCount c') = upRule nhCnt) :
    Renewed level m m' c c' := by
  obtain ⟨hnull, htrade⟩ := newNode_trades hok hlevel hnew
  refine ⟨(htrade.swap (freeOld_trades hlevel hfree)).congr ?_ ?_, fun _ hnone => ?_⟩
  · rw [own, units, hold, hd]
  · rw [own, units, baseOf, baseOf, hptr, hkids, hwords]
  · rw [units, hkids, hwords]
    exact hnull (hptr ▸ hnone)

/-! ## The edits -/

/-- The positions with a slot are positions with a next hop. -/
theorem Packed.owners_subset (h : Packed c f) : owners c ⊆ members c.internal := h.shares.subset

theorem internal_ne_zero_of_mem (h : i ∈ members c.internal) : c.internal ≠ 0#64 := by
  intro hzero
  rw [hzero, members_zero] at h
  exact Finset.notMem_empty i h

theorem setBitmap_ne_zero (b : Bitmap) (hpos : pos < 64) : setBitmap b pos ≠ 0#64 := by
  intro hzero
  have hmem : pos ∈ members (setBitmap b pos) := by
    rw [members_setBitmap hpos]
    exact Finset.mem_insert_self _ _
  rw [hzero, members_zero] at hmem
  exact Finset.notMem_empty pos hmem

/-- **`extend_rule`** exchanges the block of the node, unless it needs no slot. -/
theorem extendRule_renewed (hok : m.Succeeds) (hlevel : level < MAX_LEVEL) (hp : Packed c f)
    (hpos : pos < 63) (hclear : pos ∉ members c.internal)
    (h : extendRule m c pos level nhi = some (c', m')) :
    Renewed level m m' c c' := by
  have howners := owners_extendRule hpos h
  have hset : setBitmap c.internal pos ≠ 0#64 := setBitmap_ne_zero _ (by omega)
  rw [extendRule] at h
  obtain ⟨k, hnum, h⟩ := Option.bind_eq_some_iff.mp h
  obtain ⟨b, hred, h⟩ := Option.bind_eq_some_iff.mp h
  cases b with
  | true =>
      obtain ⟨rfl, rfl⟩ := Prod.mk.inj (Option.some.inj h)
      have hne : c.internal ≠ 0#64 := by
        intro hzero
        rw [isRedund, hzero] at hred
        simp at hred
      have hwords : wordCount { c with internal := setBitmap c.internal pos } = wordCount c := by
        rw [wordCount_of_ne hset, wordCount_of_ne hne, howners, if_pos hred]
      exact renewed_of_eq rfl rfl hwords
  | false =>
      obtain ⟨⟨node, pos'⟩, hnode, h⟩ := Option.bind_eq_some_iff.mp h
      obtain ⟨⟨r, m₁⟩, hnew, h⟩ := Option.bind_eq_some_iff.mp h
      obtain ⟨children, -, h⟩ := Option.bind_eq_some_iff.mp h
      obtain ⟨newMask, -, h⟩ := Option.bind_eq_some_iff.mp h
      obtain ⟨rules₀, -, h⟩ := Option.bind_eq_some_iff.mp h
      obtain ⟨rules₁, -, h⟩ := Option.bind_eq_some_iff.mp h
      obtain ⟨rules₂, -, h⟩ := Option.bind_eq_some_iff.mp h
      obtain ⟨m₂, hfree, h⟩ := Option.bind_eq_some_iff.mp h
      obtain ⟨rfl, rfl⟩ := Prod.mk.inj (Option.some.inj h)
      have hnode' : node.childPtr = c.childPtr ∧ node.external = c.external ∧
          node.internal = setBitmap c.internal pos := by
        split_ifs at hnode with hzero
        · obtain ⟨mask, -, hnode⟩ := Option.bind_eq_some_iff.mp hnode
          obtain ⟨node', hstored, hnode⟩ := Option.bind_eq_some_iff.mp hnode
          obtain ⟨words', -, hstored⟩ := Option.bind_eq_some_iff.mp hstored
          obtain rfl := Option.some.inj hstored
          obtain ⟨rfl, rfl⟩ := Prod.mk.inj (Option.some.inj hnode)
          exact ⟨rfl, rfl, rfl⟩
        · obtain ⟨rfl, rfl⟩ := Prod.mk.inj (Option.some.inj hnode)
          exact ⟨rfl, rfl, rfl⟩
      obtain ⟨hptr, hext, hint⟩ := hnode'
      have hold := wordCount_of_ruleNum hnum
      refine renewed_of_newNode hok hlevel hnew hfree hptr hold rfl (congrArg countChildren hext) ?_
      rw [if_neg (by simp [hred])] at howners
      have hcard : ((insert pos (owners c)).card : ℕ) = (owners c).card + 1 :=
        Finset.card_insert_of_notMem fun hmem => hclear (hp.owners_subset hmem)
      rw [wordCount_of_ne (by exact hint ▸ hset), howners, hcard]
      by_cases hzero : c.internal = 0#64
      · -- the first next hop: one word asked for, two used, one unit
        rw [wordCount, if_pos hzero] at hold
        rw [owners_of_zero hzero, Finset.card_empty, ← hold]
        rfl
      · rw [wordCount_of_ne hzero] at hold
        rw [← hold]

/-- **`extend_child`** exchanges the block for one with a child more. -/
theorem extendChild_renewed (hok : m.Succeeds) (hlevel : level < MAX_LEVEL) (hpos : pos < 64)
    (hclear : pos ∉ members c.external) {slot : ℤ}
    (h : extendChild m c level pos = some (c', slot, m')) :
    Renewed level m m' c c' := by
  have howners := owners_extendChild h
  rw [extendChild] at h
  obtain ⟨k, hnum, h⟩ := Option.bind_eq_some_iff.mp h
  obtain ⟨⟨r, m₁⟩, hnew, h⟩ := Option.bind_eq_some_iff.mp h
  obtain ⟨rules, -, h⟩ := Option.bind_eq_some_iff.mp h
  obtain ⟨children, -, h⟩ := Option.bind_eq_some_iff.mp h
  obtain ⟨m₂, hfree, h⟩ := Option.bind_eq_some_iff.mp h
  obtain ⟨rfl, hrest⟩ := Prod.mk.inj (Option.some.inj h)
  obtain ⟨-, rfl⟩ := Prod.mk.inj hrest
  have hold := wordCount_of_ruleNum hnum
  refine renewed_of_newNode hok hlevel hnew hfree rfl hold rfl
    (countChildren_setBitmap hpos hclear) ?_
  rw [← hold, wordCount, wordCount, howners]

/-- `reduce_child` leaves the slots. -/
theorem owners_reduceChild (h : reduceChild m c pos level = some (c', m')) :
    owners c' = owners c := by
  rw [reduceChild] at h
  obtain ⟨k, hnum, h⟩ := Option.bind_eq_some_iff.mp h
  obtain ⟨-, -, h⟩ := Option.bind_eq_some_iff.mp h
  obtain ⟨⟨r, m₁⟩, -, h⟩ := Option.bind_eq_some_iff.mp h
  obtain ⟨rules, hrules, h⟩ := Option.bind_eq_some_iff.mp h
  obtain ⟨children, -, h⟩ := Option.bind_eq_some_iff.mp h
  obtain ⟨m₂, -, h⟩ := Option.bind_eq_some_iff.mp h
  obtain ⟨rfl, -⟩ := Prod.mk.inj (Option.some.inj h)
  exact owners_copied hnum hrules

/-- **`reduce_child`** exchanges the block for one with a child less. -/
theorem reduceChild_renewed (hok : m.Succeeds) (hlevel : level < MAX_LEVEL)
    (hset : pos ∈ members c.external) (h : reduceChild m c pos level = some (c', m')) :
    Renewed level m m' c c' := by
  have howners := owners_reduceChild h
  rw [reduceChild] at h
  obtain ⟨k, hnum, h⟩ := Option.bind_eq_some_iff.mp h
  obtain ⟨-, -, h⟩ := Option.bind_eq_some_iff.mp h
  obtain ⟨⟨r, m₁⟩, hnew, h⟩ := Option.bind_eq_some_iff.mp h
  obtain ⟨rules, -, h⟩ := Option.bind_eq_some_iff.mp h
  obtain ⟨children, -, h⟩ := Option.bind_eq_some_iff.mp h
  obtain ⟨m₂, hfree, h⟩ := Option.bind_eq_some_iff.mp h
  obtain ⟨rfl, rfl⟩ := Prod.mk.inj (Option.some.inj h)
  have hold := wordCount_of_ruleNum hnum
  refine renewed_of_newNode hok hlevel hnew hfree rfl hold rfl (countChildren_clearBitmap hset) ?_
  rw [← hold, wordCount, wordCount, howners]

theorem rules_newNode_zero {mbCnt : ℕ} {r : Region}
    (h : newNode m mbCnt 0 level = some (r, m')) : r.rules = [] := by
  rw [newNode] at h
  obtain ⟨⟨ret, m₁⟩, -, h⟩ := Option.bind_eq_some_iff.mp h
  cases ret with
  | none =>
      obtain ⟨rfl, -⟩ := Prod.mk.inj (Option.some.inj h)
      rfl
  | some p =>
      obtain ⟨rfl, -⟩ := Prod.mk.inj (Option.some.inj h)
      rfl

/-- What `reduce_rule` does at a position of `internal`: if the position has a slot, a new block
without that slot takes the place of the old one. -/
theorem reduceRule_cases (hmem : pos ∈ members c.internal)
    (h : reduceRule m c pos level = some (c', m')) :
    (pos ∉ owners c ∧ c' = { c with internal := clearBitmap c.internal pos } ∧ m' = m) ∨
    (pos ∈ owners c ∧ ∃ nhCnt r m₁ node rules children,
      newNode m (countChildren c.external) nhCnt level = some (r, m₁) ∧
      freeOld m₁ node (wordCount c) (countChildren c.external) level = some m' ∧
      node.childPtr = c.childPtr ∧
      c' = ⟨c.external, clearBitmap c.internal pos, r.ptr, rules, children⟩ ∧
      ((owners c).card = 1 ∧ nhCnt = 0 ∧ rules = [] ∨
        (owners c).card ≠ 1 ∧ nhCnt = (owners c).card ∧
          ∃ mask, rules[0]? = some mask ∧ members mask = (owners c).erase pos)) := by
  have hzero := internal_ne_zero_of_mem hmem
  rw [reduceRule] at h
  obtain ⟨k, hnum, h⟩ := Option.bind_eq_some_iff.mp h
  obtain ⟨mask, hmask, h⟩ := Option.bind_eq_some_iff.mp h
  have howners := owners_of_getInlMask hzero hmask
  have hk := wordCount_of_ruleNum hnum
  rw [wordCount_of_ne hzero] at hk
  by_cases htest : ¬ testBitmap mask pos
  · rw [if_pos htest] at h
    obtain ⟨rfl, rfl⟩ := Prod.mk.inj (Option.some.inj h)
    exact .inl ⟨fun hown => htest (testBitmap_iff.mpr (howners ▸ hown)), rfl, rfl⟩
  · have hown : pos ∈ owners c := howners ▸ testBitmap_iff.mp (not_not.mp htest)
    have hcard : 0 < (owners c).card := Finset.card_pos.mpr ⟨pos, hown⟩
    rw [if_neg htest] at h
    obtain ⟨node, hnode, h⟩ := Option.bind_eq_some_iff.mp h
    obtain ⟨words', hwords', hnode⟩ := Option.bind_eq_some_iff.mp hnode
    obtain rfl := Option.some.inj hnode
    rw [if_neg (by omega)] at h
    obtain ⟨⟨r, m₁⟩, hnew, h⟩ := Option.bind_eq_some_iff.mp h
    obtain ⟨children, -, h⟩ := Option.bind_eq_some_iff.mp h
    obtain ⟨rules, hrules, h⟩ := Option.bind_eq_some_iff.mp h
    obtain ⟨m₂, hfree, h⟩ := Option.bind_eq_some_iff.mp h
    obtain ⟨rfl, rfl⟩ := Prod.mk.inj (Option.some.inj h)
    have hcount : 0 ≤ countOnes mask pos := by
      rw [countOnes_of_mem (howners ▸ hown)]
      exact Int.natCast_nonneg _
    by_cases hone : (owners c).card = 1
    · -- no slot is left, and no room for the mask
      rw [if_pos (by omega)] at hnew
      rw [if_neg (by omega)] at hrules
      obtain rfl := Option.some.inj hrules
      refine .inr ⟨hown, 0, r, m₁, _, r.rules, children, hnew, ?_, rfl, rfl, .inl ⟨hone, rfl, ?_⟩⟩
      · rw [wordCount_of_ne hzero, hk]
        exact hfree
      · exact rules_newNode_zero hnew
    · rw [if_neg (by omega)] at hnew
      rw [if_pos (by omega)] at hrules
      obtain ⟨front, hfront, hback⟩ := Option.bind_eq_some_iff.mp hrules
      rw [memcpyRules, sub_self] at hfront
      rw [memcpyRules] at hback
      refine .inr ⟨hown, k - 1, r, m₁, _, rules, children, hnew, ?_, rfl, rfl,
        .inr ⟨hone, by omega, clearBitmap mask pos, ?_, ?_⟩⟩
      · rw [wordCount_of_ne hzero, hk]
        exact hfree
      · rw [getElem?_zero_memcpy hback (by omega), getElem?_zero_memcpy_zero hfront (by omega),
          getElem?_zero_store_zero hwords']
      · rw [members_clearBitmap, howners]

/-- **`reduce_rule`** exchanges the block of the node, unless the position has no slot. -/
theorem reduceRule_renewed (hok : m.Succeeds) (hlevel : level < MAX_LEVEL) (hp : Packed c f)
    {f' : ℕ → Option Nhi} (hp' : Packed c' f') (hmem : pos ∈ members c.internal)
    (h : reduceRule m c pos level = some (c', m')) :
    Renewed level m m' c c' := by
  have hzero := internal_ne_zero_of_mem hmem
  have hkeep : ∀ o ∈ owners c, o ≠ pos → clearBitmap c.internal pos ≠ 0#64 := by
    intro o ho hne
    refine internal_ne_zero_of_mem (c := { c with internal := clearBitmap c.internal pos })
      (i := o) ?_
    rw [members_clearBitmap]
    exact Finset.mem_erase.mpr ⟨hne, hp.owners_subset ho⟩
  rcases reduceRule_cases hmem h with ⟨hown, rfl, rfl⟩ | hcase
  · obtain ⟨o, ho, -⟩ := hp.shares.owned pos hmem
    have hne := hkeep o ho fun heq => hown (heq ▸ ho)
    have hmask : owners { c with internal := clearBitmap c.internal pos } = owners c := by
      rw [owners, owners, if_neg hne, if_neg hzero]
      rfl
    have hwords : wordCount { c with internal := clearBitmap c.internal pos } = wordCount c := by
      rw [wordCount_of_ne hne, wordCount_of_ne hzero, hmask]
    exact renewed_of_eq rfl rfl hwords
  · obtain ⟨hown, nhCnt, r, m₁, node, rules, children, hnew, hfree, hptr, rfl, hleft⟩ := hcase
    refine renewed_of_newNode hok hlevel hnew hfree hptr rfl rfl rfl ?_
    rcases hleft with ⟨hone, rfl, rfl⟩ | ⟨hone, rfl, mask, hword, hmask⟩
    · -- without a mask there must be no next hop
      have hnone : (⟨c.external, clearBitmap c.internal pos, r.ptr, [], children⟩ :
          MbNode).internal = 0#64 := by
        by_contra hne
        obtain ⟨i, hi⟩ := Finset.nonempty_iff_ne_empty.mpr fun he =>
          hne (members_eq_empty_iff.mp he)
        obtain ⟨mask, slots, pad, hrules, -⟩ := hp'.exists_shares hi
        cases hrules
      rw [wordCount, if_pos hnone]
    · have hpos := Finset.card_pos.mpr ⟨pos, hown⟩
      have hmore : 1 < (owners c).card := by omega
      obtain ⟨o, ho, hne⟩ := Finset.exists_mem_ne hmore pos
      have hclear := hkeep o ho hne
      have hget : owners ⟨c.external, clearBitmap c.internal pos, r.ptr, rules, children⟩ =
          (owners c).erase pos := by
        rw [owners_of_getInlMask hclear ((getInlMask_eq_getElem? _).trans hword), hmask]
      rw [wordCount_of_ne hclear, hget, Finset.card_erase_of_mem hown, Nat.sub_add_cancel hpos]

/-- `*pointer_to_nhi(node, pos) = nhi` leaves the block. -/
theorem assign_renewed (m : Mm) (level : ℕ) (hp : Packed c f) (hmem : pos ∈ members c.internal)
    {p : NhiPtr} (hptr : pointerToNhi c pos = some p) (h : p.assign nhi = some c') :
    Renewed level m m c c' ∧ c'.children = c.children := by
  obtain ⟨mask, slots, pad, hrules, hs⟩ := hp.exists_shares hmem
  obtain ⟨o, ho⟩ := hs.exists_owner hmem
  obtain rfl := Option.some.inj (hptr.symm.trans (pointerToNhi_eq hrules ho))
  obtain ⟨rules, hstore, h⟩ := Option.bind_eq_some_iff.mp h
  obtain rfl := Option.some.inj h
  refine ⟨renewed_of_eq rfl rfl ?_, rfl⟩
  have hword := getElem?_zero_store hstore (by push_cast; omega)
  have hmask : owners { c with rules := rules } = owners c := by
    rw [owners, owners, getInlMask_eq_getElem?, getInlMask_eq_getElem?, hword]
  rw [wordCount, wordCount, hmask]

/-! ## Exchanges of a trie -/

/-- Every node that needs a block has one. -/
inductive Backed : MbNode → Prop
  | intro {c : MbNode} (own : HasBlock c) (kids : ∀ d ∈ c.children, Backed d) : Backed c

theorem Backed.own (h : Backed c) : HasBlock c := by
  cases h
  assumption

theorem Backed.kids (h : Backed c) : ∀ d ∈ c.children, Backed d := by
  cases h
  assumption

theorem backed_zero : Backed .zero := .intro (fun _ => rfl) fun _ hd => absurd hd List.not_mem_nil

/-- A part of an update that exchanges the blocks of a trie, up to some that nobody has
afterwards. -/
structure Rebuilt (level : ℕ) (m m' : Mm) (c c' : MbNode) (lost : Multiset Block) : Prop where
  trades : mmBook.Trades m m' (blocks level c) (blocks level c' + lost)
  backed : Backed c → Backed c'

theorem rebuilt_refl (level : ℕ) (m : Mm) (c : MbNode) : Rebuilt level m m c c 0 :=
  ⟨(Book.Trades.refl m _).congr rfl (add_zero _), id⟩

theorem Rebuilt.trans {c₁ : MbNode} {lost lost' : Multiset Block}
    (h : Rebuilt level m m₁ c c₁ lost) (h' : Rebuilt level m₁ m' c₁ c' lost') :
    Rebuilt level m m' c c' (lost' + lost) where
  trades := h.trades.trans
    ((h'.trades.frame lost).congr (add_comm _ _) (by abel))
  backed := fun hback => h'.backed (h.backed hback)

/-- An exchange of the block of a node, whose children stay or are joined by a zero one. -/
theorem rebuilt_of_renewed (h : Renewed level m m' c c')
    (hinner : c'.inner own level = c.inner own level)
    (hkids : ∀ d ∈ c'.children, d ∈ c.children ∨ d = .zero) : Rebuilt level m m' c c' 0 := by
  refine ⟨?_, fun hback => .intro (h.hasBlock hback.own) fun d hd => ?_⟩
  · rw [add_zero, blocks_eq, blocks_eq, hinner]
    exact (h.trades.frame (c.inner own level)).congr (add_comm _ _) (add_comm _ _)
  · rcases hkids d hd with hd | rfl
    · exact hback.kids d hd
    · exact backed_zero

theorem inner_of_children (h : c'.children = c.children) :
    c'.inner own level = c.inner own level := by
  rw [MbNode.inner, MbNode.inner, h]

theorem rebuilt_of_children (h : Renewed level m m' c c') (hkids : c'.children = c.children) :
    Rebuilt level m m' c c' 0 :=
  rebuilt_of_renewed h (inner_of_children hkids) fun _ hd => .inl (hkids ▸ hd)

theorem mem_children_of_kid (hd : c.kid pos = some d) : d ∈ c.children := by
  rw [MbNode.kid, lookup_of_mem (mem_of_kid hd)] at hd
  exact List.mem_of_getElem? hd

/-- A child is rebuilt, and its parent with it. -/
theorem Rebuilt.putChild {d' : MbNode} {lost : Multiset Block}
    (h : Rebuilt (level + 1) m m' d d' lost)
    (hlen : c.children.length = (members c.external).card) (hd : c.kid pos = some d) :
    Rebuilt level m m' c (c.putChild pos d') lost := by
  obtain ⟨rest, hold, hnew, -⟩ := exists_inner_eq_of_length own level hlen hd
  have hown : own level (c.putChild pos d') = own level c := rfl
  refine ⟨?_, fun hback => .intro hback.own fun e he => ?_⟩
  · rw [blocks_eq, blocks_eq, hold, hnew, hown]
    refine (h.trades.frame (own level c + rest)).congr ?_ ?_ <;> rw [blocks] <;> abel
  · rcases List.mem_or_eq_of_mem_set he with he | rfl
    · exact hback.kids e he
    · exact h.backed (hback.kids d (mem_children_of_kid hd))

/-! ## Insert -/

/-- The step to a child. -/
theorem enterChild_rebuilt (hok : m.Succeeds) (hlevel : level < MAX_LEVEL) (h : Compresses c n)
    {t : List Bool} (ht : t.length = 6) {slot : ℤ}
    (hcall : (if testBitmap c.external (value t) then some (c, nextChild c (value t), m)
      else extendChild m c level (value t)) = some (c', slot, m')) :
    Rebuilt level m m' c c' 0 := by
  split_ifs at hcall with htest
  · obtain ⟨rfl, hrest⟩ := Prod.mk.inj (Option.some.inj hcall)
    obtain ⟨-, rfl⟩ := Prod.mk.inj hrest
    exact rebuilt_refl level m c
  · have hclear : value t ∉ members c.external := fun hmem => htest (testBitmap_iff.mpr hmem)
    have hlt : value t < 64 := by
      have := value_lt t
      rwa [ht] at this
    obtain ⟨c₁, m₁, hspec, -, -, hchildren, -, -⟩ :=
      extendChild_spec hok hlevel h.children_length h.packed hlt
    obtain ⟨rfl, -⟩ := Prod.mk.inj (Option.some.inj (hspec.symm.trans hcall))
    have hr : rank (members c.external) (value t) ≤ c.children.length :=
      h.children_length ▸ rank_le_card _ _
    have hperm := List.perm_insertIdx MbNode.zero c.children hr
    rw [← hchildren] at hperm
    refine rebuilt_of_renewed (extendChild_renewed hok hlevel hlt hclear hcall) ?_ fun d hd => ?_
    · -- a zero child has no block
      have hzero : MbNode.zero.collect own (level + 1) = 0 := blocks_zero (level + 1)
      rw [MbNode.inner, MbNode.inner, (hperm.map _).sum_eq, List.map_cons, List.sum_cons, hzero,
        zero_add]
    · exact (List.mem_cons.mp (hperm.mem_iff.mp hd)).symm

/-- `insert_prefix` at the node of the prefix. -/
theorem insertLeaf_rebuilt (hok : m.Succeeds) (hlevel : level < MAX_LEVEL) (h : Compresses c n)
    (hpos : pos < 63) (hfit : InsertFits c pos nhi) {ret : ℤ}
    (hcall : (if testBitmap c.internal pos then do
        let i ← pointerToNhi c pos
        let node ← i.assign nhi
        some (node, m, (1 : ℤ))
      else do
        let (node, m) ← extendRule m c pos level nhi
        some (node, m, (0 : ℤ))) = some (c', m', ret)) :
    Rebuilt level m m' c c' 0 := by
  rw [InsertFits] at hfit
  by_cases htest : testBitmap c.internal pos
  · have hmem := testBitmap_iff.mp htest
    rw [if_pos htest] at hcall
    obtain ⟨p, hp, hcall⟩ := Option.bind_eq_some_iff.mp hcall
    obtain ⟨node, hassign, hcall⟩ := Option.bind_eq_some_iff.mp hcall
    obtain ⟨rfl, hrest⟩ := Prod.mk.inj (Option.some.inj hcall)
    obtain ⟨rfl, -⟩ := Prod.mk.inj hrest
    obtain ⟨hrenewed, hkids⟩ := assign_renewed m level h.packed hmem hp hassign
    exact rebuilt_of_children hrenewed hkids
  · have hclear : pos ∉ members c.internal := fun hmem => htest (testBitmap_iff.mpr hmem)
    rw [if_neg htest] at hcall hfit
    obtain ⟨⟨node, m₁⟩, hrule, hcall⟩ := Option.bind_eq_some_iff.mp hcall
    obtain ⟨rfl, hrest⟩ := Prod.mk.inj (Option.some.inj hcall)
    obtain ⟨rfl, -⟩ := Prod.mk.inj hrest
    obtain ⟨c₁, m₂, hspec, -, hedit⟩ :=
      extendRule_spec hok hlevel h.children_length h.packed hpos hclear hfit
    obtain ⟨rfl, -⟩ := Prod.mk.inj (Option.some.inj (hspec.symm.trans hrule))
    exact rebuilt_of_children (extendRule_renewed hok hlevel h.packed hpos hclear hrule)
      hedit.children

/-- **`insert_prefix` exchanges the blocks of the trie.** -/
theorem insertPrefix_rebuilt (hok : m.Succeeds) (h : Compresses c n) (hn : n.Wf w) {ip : α}
    {s : List Bool} (hip : Spells ip s) (hs : s.length ≤ w) (hlevel : level + w / 6 < MAX_LEVEL)
    (hfit : ∀ d, c.nodeAt (nodeBits s) = some d → InsertFits d (leafIdx s) nhi) {ret : ℤ}
    (hcall : insertPrefix m c ip s.length level nhi = some (c', m', ret)) :
    Rebuilt level m m' c c' 0 := by
  induction s using stride_induction generalizing m m' c c' n w ip level ret with
  | leaf s hlt =>
      rw [nodeBits_of_lt hlt, leafIdx_of_lt hlt] at hfit
      rw [insertPrefix_of_lt hip hlt] at hcall
      exact insertLeaf_rebuilt hok (by omega) h (inlPos_lt_bits hlt) (hfit c (nodeAt_nil c)) hcall
  | inner t s ht ih =>
      have hlevel₀ : level < MAX_LEVEL := by omega
      rw [List.length_append, ht] at hs
      have hlevel₁ : level + 1 + (w - 6) / 6 < MAX_LEVEL := by omega
      obtain ⟨c₁, m₁, n₁, m₁', d, e, henter, -, hcomp, hd, he, hwf, hdc, hop, -⟩ :=
        enterChild_compresses hok hok hlevel₀ h hn ht
      have hfit' : ∀ d', d.nodeAt (nodeBits s) = some d' → InsertFits d' (leafIdx s) nhi := by
        intro d' hd'
        rcases hdc with hdc | rfl
        · rw [← leafIdx_append ht]
          apply hfit
          rw [nodeBits_append ht, nodeAt_append ht, hdc]
          exact hd'
        · exact insertFits_nodeAt_zero hd' _
      have hok₁ := hok.of_op_eq hop
      obtain ⟨d₁, m₂, e₁, m₂', ret', hrec, -⟩ := insertPrefix_spec hok₁ hok₁ (hcomp.kids hd he) hwf
        (hip.lshift_append ht) (by omega) hlevel₁ hfit'
      have happend := insertPrefix_append ht hip hlevel₀ henter hcomp.children_length hd hrec
      obtain ⟨rfl, hrest⟩ := Prod.mk.inj (Option.some.inj (happend.symm.trans hcall))
      obtain ⟨rfl, -⟩ := Prod.mk.inj hrest
      have hkid := ih hok₁ (hcomp.kids hd he) hwf (hip.lshift_append ht) (by omega) hlevel₁ hfit'
        hrec
      have hput := hkid.putChild hcomp.children_length hd
      exact (enterChild_rebuilt hok hlevel₀ h ht henter).trans hput

/-! ## Delete -/

/-- The entries of `trace_node` lead from `root` to `c`. -/
inductive Linked (root : MbNode) : MbNode → List (MbNode × ℕ) → Prop
  | nil : Linked root root []
  | cons {c p : MbNode} {pos : ℕ} {trace : List (MbNode × ℕ)} (hkid : p.kid pos = some c)
      (hlink : Linked root p trace) : Linked root c ((p, pos) :: trace)

theorem units_of_mem_granted {base : Option Ptr} {b : Block} (hb : b ∈ granted base k level) :
    b.units = k := by
  cases base with
  | none => exact absurd hb (Multiset.notMem_zero b)
  | some p => rw [Multiset.mem_singleton.mp hb]

/-- An empty node has at most a block of no units. -/
theorem units_of_mem_blocks (h : Compresses c n) (he : c.isEmpty) {b : Block}
    (hb : b ∈ blocks level c) : b.units = 0 := by
  have hzero := he
  rw [MbNode.isEmpty, Bool.and_eq_true, beq_iff_eq, beq_iff_eq] at hzero
  obtain ⟨hint, hext⟩ := hzero
  have hkids : c.children = [] := by
    rw [← List.length_eq_zero_iff, h.children_length, hext, members_zero, Finset.card_empty]
  rw [blocks_eq, MbNode.inner, hkids, List.map_nil, List.sum_nil, add_zero] at hb
  rw [units_of_mem_granted hb, units, wordCount, if_pos hint, hext]
  rfl

/-- A child less: the block of that child stays with nobody. -/
theorem cutChild_rebuilt (hok : m.Succeeds) (hlevel : level < MAX_LEVEL) (h : Compresses c n)
    (hd : c.kid pos = some d) (hcall : reduceChild m c pos level = some (c', m')) :
    Rebuilt level m m' c c' (blocks (level + 1) d) := by
  have hmem := mem_of_kid hd
  obtain ⟨c₁, m₁, hspec, -, -, hchildren, -, -⟩ :=
    reduceChild_spec hok hlevel h.children_length h.packed hmem
  obtain ⟨rfl, -⟩ := Prod.mk.inj (Option.some.inj (hspec.symm.trans hcall))
  obtain ⟨rest, hold, -, hdrop⟩ := exists_inner_eq_of_length own level h.children_length hd
  have hrenewed := reduceChild_renewed hok hlevel hmem hcall
  have hinner : c₁.inner own level = rest := by
    rw [← hdrop none]
    exact inner_of_children hchildren
  refine ⟨?_, fun hback => .intro (hrenewed.hasBlock hback.own) fun e he => ?_⟩
  · rw [blocks_eq, blocks_eq, hold, hinner]
    refine (hrenewed.trades.frame (blocks (level + 1) d + rest)).congr ?_ ?_ <;> rw [blocks] <;>
      abel
  · exact hback.kids e (List.mem_of_mem_eraseIdx (hchildren ▸ he))

/-- `update_nodes` above the last node: `c₀` has become `c`. -/
theorem updateParents_rebuilt {c₀ : MbNode} (hok : m.Succeeds) (h : Compresses c n) {del : Bool}
    (hdel : del = true → c.isEmpty) {trace trace' : List (MbNode × ℕ)}
    (hframes : Frames trace trace') (hlink : Linked root c₀ trace)
    (hlevel : trace.length ≤ MAX_LEVEL) {lost : Multiset Block} (hlost : ∀ b ∈ lost, b.units = 0)
    (hrebuilt : Rebuilt trace.length m₀ m c₀ c lost) {ret : Bool}
    (hcall : updateParents m c del trace = some (c', m', ret)) :
    ∃ lost', (∀ b ∈ lost', b.units = 0) ∧ Rebuilt 0 m₀ m' root c' lost' := by
  induction hframes generalizing m c n c₀ del lost with
  | nil =>
      cases hlink
      obtain ⟨rfl, hrest⟩ := Prod.mk.inj (Option.some.inj hcall)
      obtain ⟨rfl, -⟩ := Prod.mk.inj hrest
      exact ⟨lost, hlost, hrebuilt⟩
  | @cons x y trace trace' hxy hframes ih =>
      obtain ⟨p, pos⟩ := x
      obtain ⟨q, pos'⟩ := y
      obtain ⟨rfl, hpq, hmem⟩ := hxy
      cases hlink with
      | cons hkid hlink =>
      simp only at hpq hmem
      rw [List.length_cons] at hlevel hrebuilt
      have hput := hpq.putChild hmem h
      have hset := setChild_eq_putChild hpq.children_length (hpq.external ▸ hmem) c
      have hparent := hrebuilt.putChild hpq.children_length hkid
      rw [updateParents, hset, Option.bind_eq_bind, Option.bind_some] at hcall
      cases del with
      | false => exact ih hok hput id hlink (by omega) hlost hparent hcall
      | true =>
          have hlt : trace.length < MAX_LEVEL := by omega
          obtain ⟨p₁, m₁, q₁, m₁', hp, -, hred, hop, -⟩ :=
            reduceChild_compresses hok hok hlt hput hmem
          simp only [if_true, hp, Option.bind_eq_bind, Option.bind_some] at hcall
          have hself : (p.putChild pos c).kid pos = some c := by
            rw [MbNode.kid, MbNode.putChild,
              lookup_set hpq.children_length (hpq.external ▸ hmem), if_pos rfl]
          have hcut := cutChild_rebuilt hok hlt hput hself hp
          have hlost' : ∀ b ∈ blocks (trace.length + 1) c + lost, b.units = 0 := by
            intro b hb
            rcases Multiset.mem_add.mp hb with hb | hb
            · exact units_of_mem_blocks h (hdel rfl) hb
            · exact hlost b hb
          exact ih (hok.of_op_eq hop) hred id hlink (by omega) hlost' (hparent.trans hcut) hcall

/-- The way down of a delete goes from child to child. -/
theorem deleteTrace_linked (h : Compresses c n) (hn : n.Wf w) {ip : α} {s : List Bool}
    (hip : Spells ip s) {v : Nhi} (hv : n.get s = some v) {trace : List (MbNode × ℕ)}
    (hlink : Linked root c trace) (hlevel : trace.length + w / 6 < LEVEL α) :
    ∃ d fr, deleteTrace c ip s.length trace = some ((d, leafIdx s) :: fr) ∧ Linked root d fr := by
  induction s using stride_induction generalizing c n w ip trace with
  | leaf s hlt =>
      rw [leafIdx_of_lt hlt]
      exact ⟨c, trace, deleteTrace_of_lt hip hlt (by omega), hlink⟩
  | inner t s ht ih =>
      rw [MbNode.get_append ht] at hv
      obtain ⟨e, he, hve⟩ := Option.bind_eq_some_iff.mp hv
      have hw := hn.le_of_kid he
      obtain ⟨d, hd, hde⟩ := h.exists_kid he
      have hlevel' : ((c, value t) :: trace).length + (w - 6) / 6 < LEVEL α := by
        rw [List.length_cons]
        omega
      obtain ⟨d', fr, htrace, hlink'⟩ :=
        ih hde (hn.kids he) (hip.lshift_append ht) hve (hlink.cons hd) hlevel'
      have hchild : c.child (value t) = some d := load_nextChild hd
      rw [leafIdx_append ht]
      refine ⟨d', fr, ?_, hlink'⟩
      rw [deleteTrace_append ht hip (by omega), hchild, Option.bind_some, htrace]

/-- A next hop less. -/
theorem reduceRule_compresses (hok : m.Succeeds) (hlevel : level < MAX_LEVEL) (h : Compresses c n)
    (hmem : pos ∈ members c.internal) (hfit : DeleteFits c pos)
    (hcall : reduceRule m c pos level = some (c', m')) :
    ∃ n', Compresses c' n' ∧ m'.op = m.op ∧ Rebuilt level m m' c c' 0 := by
  obtain ⟨c₁, m₁, hspec, hint, hedit⟩ :=
    reduceRule_spec hok hlevel h.children_length h.packed hmem hfit
  obtain ⟨rfl, rfl⟩ := Prod.mk.inj (Option.some.inj (hspec.symm.trans hcall))
  have hmem' : pos ∈ members n.internal := h.internal ▸ hmem
  obtain ⟨ptr, m₁', -, -, hl, -⟩ := TreeBitmap.reduceRule_spec hok hlevel h.layout hmem'
  refine ⟨n.withoutRule ptr pos, h.edit hl ?_ rfl rfl hedit fun i hi => ?_, hedit.op,
    rebuilt_of_children (reduceRule_renewed hok hlevel h.packed hedit.packed hmem hcall)
      hedit.children⟩
  · rw [hint, h.internal]
    rfl
  · rw [hint, members_clearBitmap] at hi
    rw [rule_withoutRule hmem', if_neg (Finset.mem_erase.mp hi).1]

/-- **`delete_prefix` exchanges the blocks of the trie**, up to blocks of no units. -/
theorem deletePrefix_rebuilt (hok : m.Succeeds) (h : Compresses c n) (hn : n.Wf w) {ip : α}
    {s : List Bool} (hip : Spells ip s) (hw : w ≤ IpAddr.LENGTH α) {v : Nhi}
    (hv : n.get s = some v) {destroyNhi : Bool}
    (hfit : ∀ d, c.nodeAt (nodeBits s) = some d → DeleteFits d (leafIdx s)) {ret : Bool}
    {calls : List Nhi}
    (hcall : deletePrefix m c ip s.length destroyNhi = some (c', m', ret, calls)) :
    ∃ lost, (∀ b ∈ lost, b.units = 0) ∧ Rebuilt 0 m m' c c' lost := by
  obtain ⟨d, e, fr, fr', htrace, -, hnode, hde, hrule, hframes, hfr⟩ :=
    deleteTrace_compresses h hn hip hv .nil (level_nil hw)
  obtain ⟨d', fr₀, htrace', hlink⟩ := deleteTrace_linked h hn hip hv .nil (level_nil hw)
  obtain ⟨hhead, rfl⟩ := List.cons.inj (Option.some.inj (htrace'.symm.trans htrace))
  obtain rfl := (Prod.mk.inj hhead).1
  have hmem : leafIdx s ∈ members d'.internal := hde.internal ▸ mem_of_rule hrule
  have hmax := LEVEL_le_MAX_LEVEL α
  have hlt : fr₀.length < MAX_LEVEL := by omega
  simp only [deletePrefix, htrace, List.head?_cons, Option.bind_eq_bind, Option.bind_some] at hcall
  obtain ⟨calls', -, hcall⟩ := Option.bind_eq_some_iff.mp hcall
  obtain ⟨⟨root', m₂, ret'⟩, hup, hcall⟩ := Option.bind_eq_some_iff.mp hcall
  obtain ⟨rfl, hrest⟩ := Prod.mk.inj (Option.some.inj hcall)
  obtain rfl := (Prod.mk.inj hrest).1
  obtain ⟨⟨d₁, m₁⟩, hred, hup⟩ := Option.bind_eq_some_iff.mp hup
  obtain ⟨e₁, hde₁, hop, hrebuilt⟩ := reduceRule_compresses hok hlt hde hmem (hfit d' hnode) hred
  exact updateParents_rebuilt (hok.of_op_eq hop) hde₁ id hframes hlink (by omega) (by simp)
    hrebuilt hup

/-! ## What the nodes need -/

/-- The units that the nodes at one depth need. -/
def slotUnits (c : MbNode) (d : ℕ) : ℕ := c.sumAtDepth units d

theorem unitsAt_blocks (h : Backed c) (l : ℕ) : unitsAt (blocks 0 c) l = slotUnits c l := by
  rw [slotUnits, blocks, unitsAt_collect_of (fun c hc => hc.kids) (fun c level l hc => ?_) h,
    if_pos (Nat.zero_le l), Nat.sub_zero]
  rw [own]
  rcases hp : c.childPtr with _ | p
  · rw [hc.own hp, ite_self]
    rfl
  · exact unitsAt_singleton _ l

/-- A node with next hops may need a unit more than in the plain build. -/
theorem Compresses.units_le (h : Compresses c n) :
    units c ≤ n.units + if members n.internal = ∅ then 0 else 1 := by
  rw [units, MbNode.units, h.external, wordCount, h.internal]
  by_cases hzero : n.internal = 0#64
  · rw [if_pos hzero, if_pos (members_eq_empty_iff.mpr hzero), hzero]
    exact le_refl _
  · have hcard : (owners c).card ≤ countChildren n.internal := by
      rw [countChildren_eq_card, ← h.internal]
      exact Finset.card_le_card h.packed.owners_subset
    rw [if_neg hzero, if_neg fun he => hzero (members_eq_empty_iff.mp he), upRule, upRule,
      NODE_SIZE]
    omega

theorem Compresses.slotUnits_le (h : Compresses c n) (l : ℕ) :
    slotUnits c l ≤
      n.unitsAtDepth l + n.sumAtDepth (fun e => if members e.internal = ∅ then 0 else 1) l := by
  rw [unitsAtDepth_eq_sumAtDepth, ← sumAtDepth_add]
  induction l generalizing c n with
  | zero => exact h.units_le
  | succ l ih =>
      refine List.Forall₂.sum_le_sum ?_
      rw [List.forall₂_map_left_iff, List.forall₂_map_right_iff]
      exact h.forall₂.imp fun d e hde => ih hde

section Runs

variable {T : Stored IpV4} {st st' st₁ : MbNode × Mm} {op : Op IpV4}

/-- The strings of whole strides in whose nodes stored prefixes end. -/
def ruleStems (T : Stored IpV4) (d : ℕ) : Finset (List Bool) :=
  (T.stems (6 * d)).filter fun t => T.endings t ≠ 0

/-- A sum over the nodes of a trie is one over strings, if what a node adds depends on its table. -/
theorem Mirrors.sumAtDepth_eq (h : Mirrors st T) {g : MbNode → ℕ} {F : Table Bool Nhi → ℕ}
    (hg : ∀ e w, e.Wf w → g e = F e.get) (hF : F (fun _ => none) = 0) (d : ℕ) :
    st.1.sumAtDepth g d = ∑ t ∈ T.stems (6 * d), F (below T.table t) := by
  cases hfull : st.1.isEmpty with
  | true =>
      have hget := get_of_isEmpty hfull
      rw [stems_of_table_eq (h.get.symm.trans hget), Finset.sum_empty]
      cases d with
      | zero => rw [MbNode.sumAtDepth, hg st.1 _ h.wf, hget, hF]
      | succ d =>
          have hkids : st.1.children = [] := by
            rw [← List.length_eq_zero_iff, h.wf.layout.children_length, (isEmpty_iff.mp hfull).2,
              Finset.card_empty]
          rw [MbNode.sumAtDepth, hkids, List.map_nil, List.sum_nil]
  | false => rw [TreeBitmap.sumAtDepth_eq hg h.wf, h.stems hfull, h.get]

theorem ruleCount_none : ruleCount (fun _ => none) = 0 := by
  simp [ruleCount]

/-- The nodes with next hops. -/
theorem Mirrors.sumAtDepth_ruled (h : Mirrors st T) (d : ℕ) :
    st.1.sumAtDepth (fun e => if members e.internal = ∅ then 0 else 1) d =
      (ruleStems T d).card := by
  rw [Mirrors.sumAtDepth_eq h (F := fun T => if ruleCount T = 0 then 0 else 1)
    (fun e w he => ?_) (if_pos ruleCount_none), ruleStems, Finset.card_filter]
  · refine Finset.sum_congr rfl fun t _ => ?_
    rw [ruleCount_table, ite_not]
  · simp only [← countChildren_internal he, countChildren_eq_card, Finset.card_eq_zero]

/-- What is outstanding after a run: the blocks of the trie, and blocks of no units. -/
structure SlotBooked (st : MbNode × Mm) (lost : Multiset Block) : Prop where
  sound : st.2.Sound
  live : st.2.live = blocks 0 st.1 + lost
  units : ∀ b ∈ lost, b.units = 0
  backed : Backed st.1

theorem slotBooked_zero (op : MemOp) : SlotBooked (.zero, mmInit op) 0 where
  sound := sound_mmInit op
  live := by rw [live_mmInit, blocks_zero, add_zero]
  units := by simp
  backed := backed_zero

theorem SlotBooked.rebuild {lost more : Multiset Block} (h : SlotBooked st lost)
    (hrebuilt : Rebuilt 0 st.2 st₁.2 st.1 st₁.1 more) (hmore : ∀ b ∈ more, b.units = 0) :
    SlotBooked st₁ (more + lost) := by
  have hlive : mmBook.live st.2 = lost + blocks 0 st.1 := h.live.trans (add_comm _ _)
  obtain ⟨hsound, hlive'⟩ := hrebuilt.trades lost h.sound hlive
  refine ⟨hsound, ?_, fun b hb => ?_, hrebuilt.backed h.backed⟩
  · rw [← add_assoc, add_comm]
    exact hlive'
  · rcases Multiset.mem_add.mp hb with hb | hb
    · exact hmore b hb
    · exact h.units b hb

/-- **A harmless update** keeps the books. -/
theorem Agree.slotBooked (h : Agree st st' T) {lost : Multiset Block} (hbook : SlotBooked st lost)
    (hlegal : (storedMachine IpV4).legal T op) (hfit : Harmless st.1 op)
    (hstep : bitmapStep st op = some st₁) : ∃ lost₁, SlotBooked st₁ lost₁ := by
  cases op with
  | insert p nhi =>
      have hlen : p.bits.length ≤ IpAddr.LENGTH IpV4 := p.length_bits ▸ p.cidr_le
      obtain ⟨⟨c₁, m₁, ret⟩, hcall, hstep⟩ := Option.bind_eq_some_iff.mp hstep
      obtain rfl := Option.some.inj hstep
      rw [bitmapInsertPrefix, ← p.length_bits] at hcall
      have hrebuilt := insertPrefix_rebuilt h.succeeds h.compresses h.mirrors.wf p.spells hlen
        (level_zero IpV4) hfit hcall
      exact ⟨_, hbook.rebuild hrebuilt (by simp)⟩
  | delete p destroyNhi =>
      obtain ⟨v, hv⟩ := Finmap.mem_iff.mp (show p ∈ T from hlegal)
      have hget : st'.1.get p.bits = some v := by rw [h.mirrors.get, table_bits, hv]
      obtain ⟨⟨c₁, m₁, ret, calls⟩, hcall, hstep⟩ := Option.bind_eq_some_iff.mp hstep
      obtain rfl := Option.some.inj hstep
      rw [bitmapDeletePrefix, ← p.length_bits] at hcall
      obtain ⟨lost₁, hunits, hrebuilt⟩ := deletePrefix_rebuilt h.succeeds h.compresses
        h.mirrors.wf p.spells (le_refl _) hget hfit hcall
      exact ⟨_, hbook.rebuild hrebuilt hunits⟩

/-- What the counters show. -/
theorem SlotBooked.accountedFor {lost : Multiset Block} (h : SlotBooked st lost) :
    AccountedFor (slotUnits st.1) st.2 := by
  refine h.sound.accountedFor fun l => ?_
  rw [h.live, unitsAt_add, unitsAt_of_units_eq_zero h.units, add_zero, unitsAt_blocks h.backed]

theorem exists_slotBooked_run {op : MemOp} (hop : (mmInit op).Succeeds) {ops : List (Op IpV4)}
    (hops : (storedMachine IpV4).Legal ∅ ops)
    (hfit : Run.Guarded bitmapStep (fun st op => Harmless st.1 op) (.zero, mmInit op) ops) :
    ∃ st st' lost, ops.foldlM bitmapStep (.zero, mmInit op) = some st ∧
      Agree st st' ((storedMachine IpV4).exec ∅ ops) ∧ SlotBooked st lost := by
  let R : MbNode × Mm → MbNode × Mm → Stored IpV4 → Prop := fun st st' T =>
    Agree st st' T ∧ ∃ lost, SlotBooked st lost
  have hstart : R (.zero, mmInit op) (.zero, mmInit op) ∅ :=
    ⟨agree_zero hop hop, 0, slotBooked_zero op⟩
  obtain ⟨st, st', hrun, -, h, lost, hbook⟩ :=
    Run.Machine.lockstep (R := R) (fun st op => Harmless st.1 op)
      (fun st st' T o h hlegal hfit => by
        obtain ⟨h, lost, hbook⟩ := h
        obtain ⟨st₁, st₁', hstep, hstep', h₁⟩ := h.step hlegal hfit
        exact ⟨st₁, st₁', hstep, hstep', h₁, h.slotBooked hbook hlegal hfit hstep⟩)
      hstart hops hfit
  exact ⟨st, st', lost, hrun, h, hbook⟩

end Runs

/-- **The books after any run of harmless updates**: every block that was given back had the size
it was asked for, and the counters show what the nodes need, modulo `2 ^ 32`.  That is at most one
unit more than in the plain build for each node with next hops. -/
theorem bitmap_run_slotBooks {op : MemOp} (hop : (mmInit op).Succeeds) {ops : List (Op IpV4)}
    (hops : (storedMachine IpV4).Legal ∅ ops)
    (hfit : Run.Guarded bitmapStep (fun st op => Harmless st.1 op) (.zero, mmInit op) ops) :
    ∃ root m T, ops.foldlM bitmapStep (.zero, mmInit op) = some (root, m) ∧
      T = (storedMachine IpV4).exec ∅ ops ∧ AccountedFor (slotUnits root) m ∧
      ∀ l, slotUnits root l ≤ T.footprint l + (ruleStems T l).card := by
  obtain ⟨⟨root, m⟩, st', lost, hrun, h, hbook⟩ := exists_slotBooked_run hop hops hfit
  refine ⟨root, m, _, hrun, rfl, hbook.accountedFor, fun l => ?_⟩
  rw [← h.mirrors.unitsAtDepth, ← Mirrors.sumAtDepth_ruled h.mirrors]
  exact h.compresses.slotUnits_le l

/-- Two prefixes with one slot. -/
theorem bitmap_run_slotBooks_halves :
    ∃ root m T, [Op.insert upperHalf 1, .insert lowerHalf 1].foldlM bitmapStep
        (.zero, mmInit simple) = some (root, m) ∧
      T = (storedMachine IpV4).exec ∅ [Op.insert upperHalf 1, .insert lowerHalf 1] ∧
      AccountedFor (slotUnits root) m ∧
      ∀ l, slotUnits root l ≤ T.footprint l + (ruleStems T l).card :=
  bitmap_run_slotBooks succeeds_mmInit_simple ⟨trivial, trivial, trivial⟩
    (guarded_halves succeeds_mmInit_simple)

/-! ## Sorted loads -/

/-- The number of short strings that repeat. -/
noncomputable def repeatCount (T : Table Bool Nhi) : ℕ := {s | s.length < 6 ∧ RepeatsIn T s}.ncard

theorem card_repeated (hn : n.Wf w) :
    (repeated 0 (members n.internal) n.rule).card = repeatCount n.get := by
  obtain ⟨L, hmem, hcard⟩ := counted_of_lt hn
  have hL : (L : Set (List Bool)) = {s | s.length < 6 ∧ RepeatsIn n.get s} := by
    ext s
    rw [Finset.mem_coe, hmem]
    exact and_comm
  rw [repeatCount, ← hL, Set.ncard_coe_finset, hcard]

theorem repeatsIn_below_stem_iff {T : Table Bool Nhi} {t s : List Bool} {k : ℕ}
    (ht : t.length = 6 * k) : RepeatsIn (below T t) s ↔ RepeatsIn T (t ++ s) := by
  induction k generalizing T t with
  | zero =>
      obtain rfl := List.length_eq_zero_iff.mp ht
      rw [below_nil, List.nil_append]
  | succ k ih =>
      obtain ⟨t, u, ht₆, rfl⟩ : ∃ t' u : List Bool, t'.length = 6 ∧ t' ++ u = t :=
        ⟨t.take 6, t.drop 6, by rw [List.length_take]; omega, List.take_append_drop 6 t⟩
      rw [List.length_append] at ht
      rw [← below_below, ih (by omega), repeatsIn_below_iff ht₆, List.append_assoc]

/-- The words in the node of a table that a sorted load fills: the mask, and a slot for each next
hop that does not repeat. -/
noncomputable def tightWords (T : Table Bool Nhi) : ℕ :=
  if ruleCount T = 0 then 0 else ruleCount T - repeatCount T + 1

/-- What a node of a tight trie needs. -/
theorem Compresses.units_eq (h : Compresses c n) (ht : Tight c) (hn : n.Wf w)
    (hnull : ∀ v ∈ n.nhis level, v ≠ 0) :
    units c = countChildren n.external + upRule (tightWords n.get) := by
  have hshares := h.packed.shares
  have htight : Thrifty (members c.internal) (owners c) n.rule :=
    ht.own.congr fun i hi => (h.packed.hop_eq hi).symm
  rw [h.internal] at hshares htight
  have hcard := htight.card_eq hshares (exists_rule_ne h.layout hnull)
  rw [card_repeated hn, ← countChildren_eq_card, countChildren_internal hn] at hcard
  rw [units, upChild, h.external, wordCount, h.internal, tightWords]
  by_cases hzero : n.internal = 0#64
  · have hnone : ruleCount n.get = 0 := by
      rw [← countChildren_internal hn, hzero]
      rfl
    rw [if_pos hzero, if_pos hnone]
  · have hsome : ruleCount n.get ≠ 0 := by
      rw [← countChildren_internal hn, countChildren_eq_card, Ne, Finset.card_eq_zero,
        members_eq_empty_iff]
      exact hzero
    rw [if_neg hzero, if_neg hsome, hcard, Nat.add_sub_cancel]

theorem Compresses.slotUnits_eq (h : Compresses c n) (ht : Tight c) (hn : n.Wf w)
    (hnull : ∀ v ∈ n.nhis level, v ≠ 0) (d : ℕ) :
    slotUnits c d =
      n.sumAtDepth (fun e => countChildren e.external + upRule (tightWords e.get)) d := by
  induction d generalizing c n w level with
  | zero => exact h.units_eq ht hn hnull
  | succ d ih =>
      rw [slotUnits, MbNode.sumAtDepth, MbNode.sumAtDepth]
      refine congrArg List.sum (List.ext_get (by simp [h.forall₂.length_eq]) fun r hr hr' => ?_)
      rw [List.length_map] at hr hr'
      simp only [List.get_eq_getElem, List.getElem_map]
      have hc := List.getElem_mem hr
      obtain ⟨pos, -, hpos⟩ := exists_lookup_eq h.children_length hc
      have he := List.getElem_mem hr'
      exact ih (h.forall₂.get hr hr') (ht.kids hpos) (hn.kids_of_mem he) fun v hv =>
        hnull v (Multiset.mem_of_le (nhis_le_of_mem he) hv)

section Loads

variable {T : Stored IpV4} {st st' : MbNode × Mm} {l : List (Prefix IpV4 × Nhi)}

/-- The number of prefixes that repeat in the node at `t`. -/
def repeatsAt (T : Stored IpV4) (t : List Bool) : ℕ :=
  (T.repeats.filter fun p => t <+: p.bits ∧ p.cidr < t.length + 6).card

/-- The units that a map needs at one level of the `COMPRESS_NHI` build, once it is loaded in
order. -/
def slotFootprint (T : Stored IpV4) (d : ℕ) : ℕ :=
  (T.stems (6 * (d + 1))).card +
    ∑ t ∈ ruleStems T d, upRule (T.endings t - repeatsAt T t + 1)

theorem repeatCount_table {t : List Bool} {k : ℕ} (ht : t.length = 6 * k) :
    repeatCount (below T.table t) = repeatsAt T t := by
  have himage : (t ++ ·) '' {u | u.length < 6 ∧ RepeatsIn (below T.table t) u} =
      ((T.repeats.filter fun p => t <+: p.bits ∧ p.cidr < t.length + 6).image Prefix.bits :
        Set (List Bool)) := by
    ext s
    simp only [Set.mem_image, Set.mem_ofPred_eq, Finset.coe_image, Finset.mem_coe,
      Finset.mem_filter, repeatsIn_below_stem_iff ht]
    constructor
    · intro h
      obtain ⟨u, ⟨hlt, hrep⟩, rfl⟩ := h
      have hget := hrep
      obtain ⟨-, v, -, hv, -⟩ := hget
      obtain ⟨p, hbits, -⟩ := exists_prefix_of_table hv
      refine ⟨p, ⟨mem_repeats_iff.mpr (hbits ▸ hrep), ?_, ?_⟩, hbits⟩
      · rw [hbits]
        exact List.prefix_append t u
      · rw [← p.length_bits, hbits, List.length_append]
        omega
    · intro h
      obtain ⟨p, ⟨hp, ⟨u, hu⟩, hlt⟩, rfl⟩ := h
      refine ⟨u, ⟨?_, ?_⟩, hu⟩
      · rw [← p.length_bits, ← hu, List.length_append] at hlt
        omega
      · rw [hu]
        exact mem_repeats_iff.mp hp
  rw [repeatCount, ← Set.ncard_image_of_injective _ (List.append_right_injective t), himage,
    Set.ncard_coe_finset, Finset.card_image_of_injective _ Prefix.bits_injective, repeatsAt]

/-- **A tight trie needs what its map needs.** -/
theorem Agree.slotUnits_eq (h : Agree st st' T) (ht : Tight st.1)
    (hnull : ∀ v ∈ T.values, v ≠ 0) (d : ℕ) : slotUnits st.1 d = slotFootprint T d := by
  rw [← h.mirrors.nhis] at hnull
  have hwords : st'.1.sumAtDepth (fun e => upRule (tightWords e.get)) d =
      ∑ t ∈ T.stems (6 * d), upRule (tightWords (below T.table t)) := by
    refine Mirrors.sumAtDepth_eq h.mirrors (F := fun T => upRule (tightWords T))
      (fun _ _ _ => rfl) ?_ d
    simp only [tightWords, if_pos ruleCount_none]
    rfl
  rw [h.compresses.slotUnits_eq ht h.mirrors.wf hnull, sumAtDepth_add,
    ← sumAtDepth_succ h.mirrors.wf, sumAtDepth_one h.mirrors.wf, h.mirrors.card_stems_succ, hwords,
    slotFootprint, ruleStems, Finset.sum_filter]
  congr 1
  refine Finset.sum_congr rfl fun t hstem => ?_
  rw [tightWords, ruleCount_table, repeatCount_table (mem_stored_stems_iff.mp hstem).1]
  by_cases hzero : T.endings t = 0
  · rw [if_pos hzero, if_neg (not_not.mpr hzero)]
    rfl
  · rw [if_neg hzero, if_pos hzero]

theorem legal_loadOps (l : List (Prefix IpV4 × Nhi)) (T : Stored IpV4) :
    (storedMachine IpV4).Legal T (loadOps l) := by
  induction l generalizing T with
  | nil => trivial
  | cons e l ih => exact ⟨trivial, ih _⟩

/-- A load in order is one of harmless inserts. -/
theorem Agree.guarded_loads (h : Agree st st' T) (ht : Tight st.1) (hl : Descending l)
    (hfront : ∀ e ∈ l, InFront T e.1) :
    Run.Guarded bitmapStep (fun st op => Harmless st.1 op) st (loadOps l) := by
  induction l generalizing st st' T with
  | nil => trivial
  | cons e l ih =>
      obtain ⟨he, hl⟩ := List.pairwise_cons.mp hl
      refine ⟨h.harmless (hfront e List.mem_cons_self) e.2, fun st₁ hst₁ => ?_⟩
      obtain ⟨st₂, st₁', hstep, -, h₁, ht₁⟩ := h.load ht (hfront e List.mem_cons_self) e.2
      obtain rfl := Option.some.inj (hst₁.symm.trans hstep)
      refine ih h₁ ht₁ hl fun e' he' q hq hnode => ?_
      rcases Finmap.mem_insert.mp hq with rfl | hq
      · exact he e' he' hnode
      · exact hfront e' (List.mem_cons_of_mem e he') q hq hnode

end Loads

/-- **The books after a sorted load**: the counters show what the map needs, modulo `2 ^ 32`, a mask
and the slots that do not repeat for each node in which a prefix ends. -/
theorem bitmap_load_slotBooks {op : MemOp} (hop : (mmInit op).Succeeds)
    {l : List (Prefix IpV4 × Nhi)} (hl : Descending l) (hnull : ∀ e ∈ l, e.2 ≠ 0) :
    ∃ root m T, (loadOps l).foldlM bitmapStep (.zero, mmInit op) = some (root, m) ∧
      T = (storedMachine IpV4).exec ∅ (loadOps l) ∧ AccountedFor (slotFootprint T) m := by
  have hzero := agree_zero hop hop
  have hfront : ∀ e ∈ l, InFront (∅ : Stored IpV4) e.1 := fun e _ q hq =>
    absurd hq Finmap.notMem_empty
  obtain ⟨⟨root, m⟩, st', hrun, -, h, ht⟩ := hzero.loads hl tight_zero hfront
  obtain ⟨st, -, lost, hrun', -, hbook⟩ :=
    exists_slotBooked_run hop (legal_loadOps l ∅) (hzero.guarded_loads tight_zero hl hfront)
  obtain rfl := Option.some.inj (hrun.symm.trans hrun')
  have hvalues : ∀ v ∈ Stored.values ((storedMachine IpV4).exec ∅ (loadOps l)), v ≠ 0 := by
    intro v hv
    rw [values_exec_loadOps hl fun _ _ => Finmap.notMem_empty] at hv
    rcases Multiset.mem_add.mp hv with hv | hv
    · exact absurd hv (Multiset.notMem_zero v)
    · obtain ⟨e, he, rfl⟩ := List.mem_map.mp (Multiset.mem_coe.mp hv)
      exact hnull e he
  refine ⟨root, m, _, hrun, rfl, ?_⟩
  have hunits : slotUnits root = slotFootprint ((storedMachine IpV4).exec ∅ (loadOps l)) :=
    funext fun d => h.slotUnits_eq ht hvalues d
  rw [← hunits]
  exact hbook.accountedFor

theorem bitmap_load_slotBooks_halves :
    ∃ root m T, (loadOps [(upperHalf, 1), (lowerHalf, 1)]).foldlM bitmapStep
        (.zero, mmInit simple) = some (root, m) ∧
      T = (storedMachine IpV4).exec ∅ (loadOps [(upperHalf, 1), (lowerHalf, 1)]) ∧
      AccountedFor (slotFootprint T) m :=
  bitmap_load_slotBooks succeeds_mmInit_simple (descending_of_sorted (by decide)) (by decide)

end CompressNhi

end TreeBitmap
