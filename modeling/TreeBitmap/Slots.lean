import TreeBitmap.Edits

/-!
# What the pointers into a block read

The two arrays of a node grow away from one pointer, and every edit moves both of them to a
new block.  A caller does not see the slots: it reads a next hop through `pointer_to_nhi` and a
child through `next_child`, each at a position of the bitmap.  Read in this way, an edit
changes one position and no other.

## Main definitions

* `MbNode.Fits` — the arrays lie inside the block.
* `Kept` — what an edit leaves in place.
* `Restored` — the bitmaps and the arrays are as before.
* `array_edits` — **the four edits**, at every position, and each extension undone.
-/

namespace TreeBitmap

open Ranked

/-- The slots of the next hops end where the block starts, and the children end where the
block ends. -/
structure MbNode.Fits (n : MbNode) : Prop where
  rules : 8 * n.rules.length ≤ NODE_SIZE * upRule (countChildren n.internal)
  children : n.children.length ≤ upChild (countChildren n.external)

theorem MbNode.Layout.fits {n : MbNode} (hn : n.Layout) : n.Fits where
  rules := by
    simp only [hn.countRules, upRule, NODE_SIZE]
    omega
  children := hn.countKids.le

/-- An edit from `n` to `n'`, which is to have these bitmaps: the positions that are set in the
old and in the new bitmap have kept their next hops and their children, and the old block has
been exchanged for the new one. -/
structure Kept (level : ℕ) (m m' : Mm) (n n' : MbNode) (inl enl : Bitmap) : Prop where
  layout : n'.Layout
  fits : n'.Fits
  internal : n'.internal = inl
  external : n'.external = enl
  nhis : ∀ q, testBitmap n.internal q → testBitmap inl q →
    ∃ v, (pointerToNhi n q).deref = some v ∧ (pointerToNhi n' q).deref = some v
  kids : ∀ q, testBitmap n.external q → testBitmap enl q →
    ∃ c, n.child q = some c ∧ n'.child q = some c
  trades : mmBook.Trades m m' (n.own level) (n'.own level)

/-- The bitmaps and the arrays are the same; the block need not be. -/
structure Restored (n n' : MbNode) : Prop where
  internal : n'.internal = n.internal
  external : n'.external = n.external
  rules : n'.rules = n.rules
  children : n'.children = n.children

section Edits

variable {m m' : Mm} {n n' : MbNode} {pos level : ℕ} {inl enl : Bitmap}

theorem clearBitmap_setBitmap {b : Bitmap} (hpos : pos < 64) (h : pos ∉ members b) :
    clearBitmap (setBitmap b pos) pos = b := by
  apply members_injective
  rw [members_clearBitmap, members_setBitmap hpos, Finset.erase_insert h]

theorem rank_setBitmap (b : Bitmap) (hpos : pos < 64) :
    rank (members (setBitmap b pos)) pos = rank (members b) pos := by
  rw [members_setBitmap hpos, rank_insert_self]

/-- What `rule` and `kid` say, the pointers read. -/
theorem Kept.of_rule (hn : n.Layout) (hl : n'.Layout) (hint : n'.internal = inl)
    (hext : n'.external = enl)
    (hrule : ∀ q ∈ members n.internal, q ∈ members inl → n'.rule q = n.rule q)
    (hkid : ∀ q ∈ members n.external, q ∈ members enl → n'.kid q = n.kid q)
    (htrade : mmBook.Trades m m' (n.own level) (n'.own level)) :
    Kept level m m' n n' inl enl where
  layout := hl
  fits := hl.fits
  internal := hint
  external := hext
  nhis := by
    intro q hq hq'
    rw [testBitmap_iff] at hq hq'
    obtain ⟨v, hv⟩ := exists_rule hn hq
    refine ⟨v, (deref_pointerToNhi hq).trans hv, ?_⟩
    rw [deref_pointerToNhi (hint ▸ hq'), hrule q hq hq', hv]
  kids := by
    intro q hq hq'
    rw [testBitmap_iff] at hq hq'
    obtain ⟨c, hc⟩ := exists_kid hn hq
    refine ⟨c, (child_eq_kid hq).trans hc, ?_⟩
    rw [child_eq_kid (hext ▸ hq'), hkid q hq hq', hc]
  trades := htrade

theorem not_mem_of_test {b : Bitmap} (h : testBitmap b pos = false) : pos ∉ members b :=
  fun hmem => Bool.eq_false_iff.mp h (testBitmap_iff.mpr hmem)

/-- `extend_rule`, and `reduce_rule` after it. -/
theorem extendRule_kept (hok : m.Succeeds) (hlevel : level < MAX_LEVEL) (hn : n.Layout)
    (hpos : pos < 64) (hclear : testBitmap n.internal pos = false) (nhi : Nhi) :
    ∃ n' m', extendRule m n pos level nhi = some (n', m') ∧
      Kept level m m' n n' (setBitmap n.internal pos) n.external ∧
      (pointerToNhi n' pos).deref = some nhi ∧
      ∃ n'' m'', reduceRule m' n' pos level = some (n'', m'') ∧ Restored n n'' := by
  have hmem := not_mem_of_test hclear
  obtain ⟨ptr, m', hext, hop, hptr, htrade⟩ := extendRule_spec hok hlevel hn hpos hmem nhi
  have hl := layout_withRule hn hpos hmem hptr nhi
  have hrule := rule_withRule hn hpos hmem ptr nhi
  have hset : pos ∈ members (n.withRule ptr pos nhi).internal := by
    rw [MbNode.withRule, members_setBitmap hpos]
    exact Finset.mem_insert_self _ _
  obtain ⟨ptr', m'', hred, -⟩ := reduceRule_spec (hok.of_op_eq hop) hlevel hl hset
  refine ⟨_, m', hext, .of_rule hn hl rfl rfl (fun q hq _ => ?_) (fun _ _ _ => rfl) htrade, ?_, _,
    m'', hred, clearBitmap_setBitmap hpos hmem, rfl, ?_, rfl⟩
  · rw [hrule, if_neg fun heq : q = pos => hmem (heq ▸ hq)]
  · rw [deref_pointerToNhi hset, hrule, if_pos rfl]
  · simp only [MbNode.withoutRule, MbNode.withRule, rank_setBitmap n.internal hpos]
    exact List.eraseIdx_insertIdx_self _

/-- `extend_child`, and `reduce_child` after it. -/
theorem extendChild_kept (hok : m.Succeeds) (hlevel : level < MAX_LEVEL) (hn : n.Layout)
    (hpos : pos < 64) (hclear : testBitmap n.external pos = false) :
    ∃ n' m', extendChild m n level pos = some (n', nextChild n' pos, m') ∧
      Kept level m m' n n' n.internal (setBitmap n.external pos) ∧
      n'.child pos = some .zero ∧
      ∃ n'' m'', reduceChild m' n' pos level = some (n'', m'') ∧ Restored n n'' := by
  have hmem := not_mem_of_test hclear
  obtain ⟨ptr, m', hext, hop, hptr, htrade⟩ := extendChild_spec hok hlevel hn hpos hmem
  have hl := layout_withChild hn hpos hmem hptr
  have hkid := kid_withChild hn hpos hmem ptr
  have hset : pos ∈ members (n.withChild ptr pos).external := by
    rw [MbNode.withChild, members_setBitmap hpos]
    exact Finset.mem_insert_self _ _
  obtain ⟨ptr', m'', hred, -⟩ := reduceChild_spec (hok.of_op_eq hop) hlevel hl hset
  refine ⟨_, m', hext, .of_rule hn hl rfl rfl (fun _ _ _ => rfl) (fun q hq _ => ?_) htrade, ?_, _,
    m'', hred, rfl, clearBitmap_setBitmap hpos hmem, rfl, ?_⟩
  · rw [hkid, if_neg fun heq : q = pos => hmem (heq ▸ hq)]
  · rw [child_eq_kid hset, hkid, if_pos rfl]
  · simp only [MbNode.withoutChild, MbNode.withChild, rank_setBitmap n.external hpos]
    exact List.eraseIdx_insertIdx_self _

theorem reduceRule_kept (hok : m.Succeeds) (hlevel : level < MAX_LEVEL) (hn : n.Layout)
    (hset : testBitmap n.internal pos) :
    ∃ n' m', reduceRule m n pos level = some (n', m') ∧
      Kept level m m' n n' (clearBitmap n.internal pos) n.external := by
  have hmem := testBitmap_iff.mp hset
  obtain ⟨ptr, m', hred, -, hl, -, htrade⟩ := reduceRule_spec hok hlevel hn hmem
  refine ⟨_, m', hred, .of_rule hn hl rfl rfl (fun q _ hq => ?_) (fun _ _ _ => rfl) htrade⟩
  rw [members_clearBitmap] at hq
  rw [rule_withoutRule hmem, if_neg (Finset.ne_of_mem_erase hq)]

theorem reduceChild_kept (hok : m.Succeeds) (hlevel : level < MAX_LEVEL) (hn : n.Layout)
    (hset : testBitmap n.external pos) :
    ∃ n' m', reduceChild m n pos level = some (n', m') ∧
      Kept level m m' n n' n.internal (clearBitmap n.external pos) := by
  have hmem := testBitmap_iff.mp hset
  obtain ⟨ptr, m', hred, -, hl, htrade⟩ := reduceChild_spec hok hlevel hn hmem
  refine ⟨_, m', hred, .of_rule hn hl rfl rfl (fun _ _ _ => rfl) (fun q _ hq => ?_) htrade⟩
  rw [members_clearBitmap] at hq
  rw [kid_withoutChild hmem, if_neg (Finset.ne_of_mem_erase hq)]

end Edits

/-- **The four array edits** of a node that is laid out as the header file draws it, at any
position: an extension at a clear one, with its reduction, and a reduction at a set one. -/
theorem array_edits {m : Mm} {n : MbNode} {pos level : ℕ} (hok : m.Succeeds)
    (hlevel : level < MAX_LEVEL) (hn : n.Layout) (hpos : pos < 64) :
    (testBitmap n.internal pos = false → ∀ nhi, ∃ n' m',
      extendRule m n pos level nhi = some (n', m') ∧
      Kept level m m' n n' (setBitmap n.internal pos) n.external ∧
      (pointerToNhi n' pos).deref = some nhi ∧
      ∃ n'' m'', reduceRule m' n' pos level = some (n'', m'') ∧ Restored n n'') ∧
    (testBitmap n.internal pos → ∃ n' m', reduceRule m n pos level = some (n', m') ∧
      Kept level m m' n n' (clearBitmap n.internal pos) n.external) ∧
    (testBitmap n.external pos = false → ∃ n' m',
      extendChild m n level pos = some (n', nextChild n' pos, m') ∧
      Kept level m m' n n' n.internal (setBitmap n.external pos) ∧
      n'.child pos = some .zero ∧
      ∃ n'' m'', reduceChild m' n' pos level = some (n'', m'') ∧ Restored n n'') ∧
    (testBitmap n.external pos → ∃ n' m', reduceChild m n pos level = some (n', m') ∧
      Kept level m m' n n' n.internal (clearBitmap n.external pos)) :=
  ⟨fun hclear => extendRule_kept hok hlevel hn hpos hclear,
    fun hset => reduceRule_kept hok hlevel hn hset,
    fun hclear => extendChild_kept hok hlevel hn hpos hclear,
    fun hset => reduceChild_kept hok hlevel hn hset⟩

/-- A node with a next hop at position 1 and children at 0 and 2. -/
def smallNode : MbNode := ⟨5, 2, some ⟨0, 1⟩, [7], [.zero, .zero]⟩

theorem layout_smallNode : smallNode.Layout where
  rules_length := by decide
  children_length := by decide
  null := fun h => by cases h

theorem array_edits_smallNode :
    (∃ n' m', reduceRule (mmInit simple) smallNode 1 0 = some (n', m') ∧
      Kept 0 (mmInit simple) m' smallNode n' (clearBitmap 2 1) 5) ∧
    ∃ n' m', extendChild (mmInit simple) smallNode 0 1 = some (n', nextChild n' 1, m') ∧
      Kept 0 (mmInit simple) m' smallNode n' 2 (setBitmap 5 1) ∧
      n'.child 1 = some .zero ∧
      ∃ n'' m'', reduceChild m' n' 1 0 = some (n'', m'') ∧ Restored smallNode n'' :=
  have hlevel : 0 < MAX_LEVEL := by decide
  have hpos : 1 < 64 := by decide
  have h := array_edits succeeds_mmInit_simple hlevel layout_smallNode hpos
  ⟨h.2.1 (by decide), h.2.2.1 (by decide)⟩

end TreeBitmap
