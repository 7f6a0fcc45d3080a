import TreeBitmap.Trie

/-!
# Lookup

Both lookups return the longest match of the address in the table of the trie.  The
eager one carries the best match found so far down the trie; the lazy one goes down
without looking and comes back through the nodes it marked.  In either case the
search below a node is the search in the node's own table, with a fallback for the
case that there is nothing: the match carried along, or the unwinding of the marks.

## Main definitions

* `doSearchLoop_eq`, `doSearchLazyLoop_eq` — the loops, from any node on.
* `doSearch_eq`, `doSearchLazy_eq` — **both are longest-prefix match**.
-/

namespace TreeBitmap

open BitString LongestMatch IpAddr

variable {α : Type} [IpAddr α] {w : ℕ} {n : MbNode}

/-- What one node answers for the first bits of an address: the position found by
`tree_function`, and what is read through it. -/
theorem treeFunction_get (hn : n.rules.length = (members n.internal).card) {t : List Bool}
    (ht : t.length = 6) :
    (lpm n.get t.dropLast = none ∧ treeFunction n.internal (value t) = -1) ∨
    ∃ v, lpm n.get t.dropLast = some v ∧ treeFunction n.internal (value t) ≠ -1 ∧
      (pointerToNhi n (treeFunction n.internal (value t)).toNat).deref = some v := by
  rw [treeFunction_eq (marks_internal hn) ht]
  rcases hl : longest n.get t.dropLast with _ | ⟨u, v⟩
  · exact .inl ⟨by rw [lpm, hl]; rfl, rfl⟩
  · obtain ⟨hu, hv, -⟩ := longest_eq_some_iff.mp hl
    have hlen : u.length < 6 := by
      have := hu.length_le
      rw [List.length_dropLast, ht] at this
      omega
    have hmem : inlPos u ∈ members n.internal :=
      (marks_internal hn u hlen).mpr (by rw [hv]; simp)
    refine .inr ⟨v, by rw [lpm, hl]; rfl, by simp, ?_⟩
    change (pointerToNhi n (inlPos u)).deref = some v
    rw [deref_pointerToNhi hmem, ← MbNode.get_of_lt hlen, hv]

/-- The longest match below a node with fewer than six bits left is found in the
node, zeros or not. -/
theorem lpm_get_of_lt (hn : n.Wf w) (hw : w < 6) {s : List Bool} (hs : s.length = w) :
    lpm n.get (s ++ List.replicate (6 - w) false).dropLast = lpm n.get s := by
  have hdrop : (s ++ List.replicate (6 - w) false).dropLast =
      s ++ List.replicate (5 - w) false := by
    rw [List.dropLast_append_of_ne_nil (by simp; omega), List.dropLast_replicate]
    congr 2
    omega
  rw [hdrop]
  exact lpm_append_of_bounded _ fun p hp => get_eq_none_of_lt hn (hs ▸ hp)

/-- How the lookup of an address goes on below a node: either there is a child for
its first six bits, or the node itself has the answer. -/
theorem lpm_get (hn : n.Wf w) {ip : α} {s : List Bool} (hs : s.length = w) (hip : Spells ip s) :
    ∃ t, t.length = 6 ∧ strideOf ip = value t ∧
      ((∃ c, value t ∈ members n.external ∧ n.kid (value t) = some c ∧ c.Wf (w - 6) ∧ 6 ≤ w ∧
          Spells (lshift ip 6) (s.drop 6) ∧
          lpm n.get s = (lpm c.get (s.drop 6)).or (lpm n.get t.dropLast)) ∨
        (value t ∉ members n.external ∧ lpm n.get s = lpm n.get t.dropLast)) := by
  by_cases hw : w < 6
  · refine ⟨s ++ List.replicate (6 - w) false, by simp; omega, ?_, .inr ⟨?_, ?_⟩⟩
    · have hlen := le_length (α := α)
      rw [strideOf_eq, hip, List.take_append, List.take_of_length_le (by omega),
        List.take_replicate, hs]
      congr 3
      omega
    · rw [hn.external hw]
      exact Finset.notMem_empty _
    · rw [lpm_get_of_lt hn hw hs]
  · have ht : (s.take 6).length = 6 := by
      rw [List.length_take]
      omega
    have hne : s.take 6 ≠ [] := List.ne_nil_of_length_pos (by omega)
    have hsplit : lpm n.get s =
        (lpm (below n.get (s.take 6)) (s.drop 6)).or (lpm n.get (s.take 6).dropLast) := by
      rw [← lpm_append _ hne, List.take_append_drop]
    refine ⟨s.take 6, ht, hip.strideOf_eq (by omega), ?_⟩
    by_cases hmem : value (s.take 6) ∈ members n.external
    · obtain ⟨c, hc⟩ := exists_kid hn.layout hmem
      refine .inl ⟨c, hmem, hc, hn.kids hc, by omega,
        hip.lshift (by decide) (by decide) (by omega), ?_⟩
      rw [hsplit, below_get ht hc]
    · have hc : n.kid (value (s.take 6)) = none := Ranked.lookup_of_notMem hmem
      have hnone : lpm (fun _ => none : Table Bool Nhi) (s.drop 6) = none :=
        lpm_eq_none_iff.mpr fun _ _ => rfl
      refine .inr ⟨hmem, ?_⟩
      rw [hsplit, below_get_of_none ht hc, hnone, Option.none_or]

/-- One round of the eager loop updates the match carried along. -/
theorem derefLongest_step (hn : n.rules.length = (members n.internal).card) {t : List Bool}
    (ht : t.length = 6) (lg : Option NhiPtr) :
    derefLongest (if treeFunction n.internal (value t) ≠ -1 then
        some (pointerToNhi n (treeFunction n.internal (value t)).toNat) else lg) =
      (lpm n.get t.dropLast).elim (derefLongest lg) some := by
  rcases treeFunction_get hn ht with ⟨hnone, hpos⟩ | ⟨v, hv, hpos, hderef⟩
  · rw [hnone, if_neg (not_not.mpr hpos)]
    rfl
  · rw [hv, if_pos hpos]
    exact hderef

/-- The eager loop at a node with a child for the address. -/
theorem doSearchLoop_of_child {c : MbNode} {ip : α} (htest : testBitmap n.external (strideOf ip))
    (hc : n.child (strideOf ip) = some c) (lg : Option NhiPtr) :
    doSearchLoop n ip lg = doSearchLoop c (lshift ip STRIDE)
      (if treeFunction n.internal (strideOf ip) ≠ -1 then
        some (pointerToNhi n (treeFunction n.internal (strideOf ip)).toNat) else lg) := by
  rw [doSearchLoop]
  simp only [countEnlBitmap, htest, if_true]
  split
  · rename_i c' hc'
    rw [Option.some.inj (hc.symm.trans hc')]
  · rename_i hnone
    rw [hc] at hnone
    cases hnone

/-- The eager loop at its last node. -/
theorem doSearchLoop_of_not {ip : α} (htest : ¬ testBitmap n.external (strideOf ip))
    (lg : Option NhiPtr) :
    doSearchLoop n ip lg = derefLongest
      (if treeFunction n.internal (strideOf ip) ≠ -1 then
        some (pointerToNhi n (treeFunction n.internal (strideOf ip)).toNat) else lg) := by
  rw [doSearchLoop, countEnlBitmap, if_neg htest]

/-- **The eager loop**: the longest match below the node, or else the one carried
along. -/
theorem doSearchLoop_eq (hn : n.Wf w) {ip : α} {s : List Bool} (hs : s.length = w)
    (hip : Spells ip s) (lg : Option NhiPtr) :
    doSearchLoop n ip lg = (lpm n.get s).elim (derefLongest lg) some := by
  induction w using Nat.strong_induction_on generalizing n ip s lg with
  | _ w ih =>
      obtain ⟨t, ht, hstride, ⟨c, hmem, hc, hcwf, hw, hip', hlpm⟩ | ⟨hmem, hlpm⟩⟩ :=
        lpm_get hn hs hip
      · have hchild : n.child (value t) = some c := load_nextChild hc
        rw [← hstride] at hmem hchild
        rw [doSearchLoop_of_child (testBitmap_iff.mpr hmem) hchild, STRIDE_eq,
          ih (w - 6) (by omega) hcwf (by rw [List.length_drop]; omega) hip', hstride,
          derefLongest_step hn.layout.rules_length ht, hlpm]
        cases lpm c.get (s.drop 6) <;> rfl
      · rw [← hstride] at hmem
        rw [doSearchLoop_of_not fun h => hmem (testBitmap_iff.mp h), hstride,
          derefLongest_step hn.layout.rules_length ht, hlpm]

/-- **`bitmap_do_search` is longest-prefix match**, with `NULL` for no match. -/
theorem doSearch_eq (hn : n.Wf (IpAddr.LENGTH α)) (ip : α) :
    doSearch n ip = some ((lpm n.get (bits ip)).getD 0) := by
  rw [doSearch, doSearchLoop_eq hn (IpAddr.length_bits ip) (spells_bits ip)]
  cases lpm n.get (bits ip) <;> rfl

/-! ## The lazy lookup -/

/-- Marks above the current depth are not looked at. -/
theorem lazyUnwind_update (lazyMark : LazyMark) (x : MbNode × ℕ) {d depth : ℕ} (hd : d ≤ depth) :
    lazyUnwind (Function.update lazyMark depth x) d = lazyUnwind lazyMark d := by
  induction d with
  | zero => rfl
  | succ d ih =>
      rw [lazyUnwind, lazyUnwind, Function.update_of_ne (by omega), ih (by omega)]

/-- What a node and the marks above it answer. -/
theorem lazy_step (hn : n.rules.length = (members n.internal).card) {t : List Bool}
    (ht : t.length = 6) (lazyMark : LazyMark) (depth : ℕ) :
    (if treeFunction n.internal (value t) ≠ -1 then
        (pointerToNhi n (treeFunction n.internal (value t)).toNat).deref
      else lazyUnwind lazyMark depth) =
      (lpm n.get t.dropLast).elim (lazyUnwind lazyMark depth) some := by
  rcases treeFunction_get hn ht with ⟨hnone, hpos⟩ | ⟨v, hv, hpos, hderef⟩
  · rw [hnone, if_neg (not_not.mpr hpos)]
    rfl
  · rw [hv, if_pos hpos]
    exact hderef

/-- The lazy loop at a node with a child for the address. -/
theorem doSearchLazyLoop_of_child {c : MbNode} {ip : α}
    (htest : testBitmap n.external (strideOf ip)) (hc : n.child (strideOf ip) = some c)
    (lazyMark : LazyMark) {depth : ℕ} (hdepth : depth < LEVEL α) :
    doSearchLazyLoop n ip lazyMark depth = doSearchLazyLoop c (lshift ip STRIDE)
      (Function.update lazyMark depth (n, strideOf ip)) (depth + 1) := by
  rw [doSearchLazyLoop]
  simp only [countEnlBitmap, htest, if_true, if_pos hdepth]
  split
  · rename_i c' hc'
    rw [Option.some.inj (hc.symm.trans hc')]
  · rename_i hnone
    rw [hc] at hnone
    cases hnone

/-- The lazy loop at its last node. -/
theorem doSearchLazyLoop_of_not {ip : α} (htest : ¬ testBitmap n.external (strideOf ip))
    (lazyMark : LazyMark) (depth : ℕ) :
    doSearchLazyLoop n ip lazyMark depth =
      if treeFunction n.internal (strideOf ip) ≠ -1 then
        (pointerToNhi n (treeFunction n.internal (strideOf ip)).toNat).deref
      else lazyUnwind lazyMark depth := by
  rw [doSearchLazyLoop, countEnlBitmap, if_neg htest]

/-- The mark that the lazy loop leaves at a node, unwound. -/
theorem lazyUnwind_mark (hn : n.rules.length = (members n.internal).card) {t : List Bool}
    (ht : t.length = 6) (lazyMark : LazyMark) (depth : ℕ) :
    lazyUnwind (Function.update lazyMark depth (n, value t)) (depth + 1) =
      (lpm n.get t.dropLast).elim (lazyUnwind lazyMark depth) some := by
  rw [lazyUnwind, Function.update_self]
  simp only
  rw [lazy_step hn ht, lazyUnwind_update _ _ (le_refl _)]

/-- **The lazy loop**: the longest match below the node, or else what the marks
hold.  The array of marks is never left. -/
theorem doSearchLazyLoop_eq (hn : n.Wf w) {ip : α} {s : List Bool} (hs : s.length = w)
    (hip : Spells ip s) (lazyMark : LazyMark) {depth : ℕ} (hdepth : depth + w / 6 < LEVEL α) :
    doSearchLazyLoop n ip lazyMark depth =
      (lpm n.get s).elim (lazyUnwind lazyMark depth) some := by
  induction w using Nat.strong_induction_on generalizing n ip s lazyMark depth with
  | _ w ih =>
      obtain ⟨t, ht, hstride, ⟨c, hmem, hc, hcwf, hw, hip', hlpm⟩ | ⟨hmem, hlpm⟩⟩ :=
        lpm_get hn hs hip
      · have hchild : n.child (value t) = some c := load_nextChild hc
        rw [← hstride] at hmem hchild
        rw [doSearchLazyLoop_of_child (testBitmap_iff.mpr hmem) hchild _ (by omega), STRIDE_eq,
          ih (w - 6) (by omega) hcwf (by rw [List.length_drop]; omega) hip' _ (by omega), hstride,
          lazyUnwind_mark hn.layout.rules_length ht, hlpm]
        cases lpm c.get (s.drop 6) <;> rfl
      · rw [← hstride] at hmem
        rw [doSearchLazyLoop_of_not fun h => hmem (testBitmap_iff.mp h), hstride,
          lazy_step hn.layout.rules_length ht, hlpm]

/-- **`bitmap_do_search_lazy` is longest-prefix match**, also in a trie for the last
`w` bits of an address, and whatever the marks hold. -/
theorem doSearchLazy_eq (hn : n.Wf w) {ip : α} {s : List Bool} (hs : s.length = w)
    (hip : Spells ip s) (lazyMark : LazyMark) :
    doSearchLazy lazyMark n ip = some ((lpm n.get s).getD 0) := by
  have hlen := hip.length_le
  have hdepth : 0 + w / 6 < LEVEL α := by
    have := Nat.div_le_div_right (c := 6) (hs ▸ hlen)
    rw [LEVEL, STRIDE_eq]
    omega
  rw [doSearchLazy, doSearchLazyLoop_eq hn hs hip lazyMark hdepth]
  cases lpm n.get s <;> rfl

end TreeBitmap
