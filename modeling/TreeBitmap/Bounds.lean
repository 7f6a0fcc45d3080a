import TreeBitmap.Batch

/-!
# How deep a trie is

No loop of a search counts the nodes it goes through.  It comes to an end because the last
level of a trie has no children: a trie for `LENGTH` bits has `LENGTH / STRIDE` levels below
its root, and the bits that are left at the last one are too few for a child.  The arrays of
marks, of traced nodes and of counters are written without a test, and are long enough for the
same reason.

## Main definitions

* `MbNode.follow` — the node at the end of a path.
* `Bounded` — what the nodes of a trie keep to.
* `doSearchWithin`, `doSearchLazyWithin` — the loops, cut off after some nodes.
* `SearchesEnd`, `UpdatesFit` — no search and no update goes further.
* `runs_bounded` — **all of this, after any run of updates**.
-/

namespace TreeBitmap

open BitString LongestMatch Ranked IpAddr

/-- The node that a path of positions leads to. -/
def MbNode.follow : MbNode → List ℕ → Option MbNode
  | n, [] => some n
  | n, pos :: path =>
      if testBitmap n.external pos then (n.child pos).bind fun c => c.follow path else none

theorem follow_cons (n : MbNode) (pos : ℕ) (r : List ℕ) :
    n.follow (pos :: r) = (n.kid pos).bind fun c => c.follow r := by
  rw [MbNode.follow]
  by_cases hmem : pos ∈ members n.external
  · rw [if_pos (testBitmap_iff.mpr hmem), child_eq_kid hmem]
  · rw [if_neg fun h => hmem (testBitmap_iff.mp h), MbNode.kid, lookup_of_notMem hmem]
    rfl

section Nodes

variable {n c : MbNode} {w : ℕ} {path : List ℕ}

/-- Every node takes `STRIDE` bits away. -/
theorem follow_spec (hn : n.Wf w) (h : n.follow path = some c) :
    6 * path.length ≤ w ∧ c.Wf (w - 6 * path.length) := by
  induction path generalizing n w with
  | nil =>
      cases h
      exact ⟨Nat.zero_le _, hn⟩
  | cons pos path ih =>
      rw [follow_cons] at h
      obtain ⟨k, hk, h⟩ := Option.bind_eq_some_iff.mp h
      have hw := hn.le_of_kid hk
      obtain ⟨hle, hc⟩ := ih (hn.kids hk) h
      have hsub : w - 6 - 6 * path.length = w - 6 * (pos :: path).length := by
        rw [List.length_cons]
        omega
      refine ⟨?_, hsub ▸ hc⟩
      rw [List.length_cons]
      omega

/-- What the nodes of a trie for addresses of type `α` keep to. -/
structure Bounded (α : Type) [IpAddr α] (root : MbNode) : Prop where
  depth : ∀ path c, root.follow path = some c → path.length ≤ IpAddr.LENGTH α / STRIDE
  /-- The last level has no children. -/
  bottom : ∀ path c, root.follow path = some c → path.length = IpAddr.LENGTH α / STRIDE →
    c.external = 0
  /-- No prefix has the last position. -/
  clear : ∀ path c, root.follow path = some c → testBitmap c.internal 63 = false
  /-- With fewer than `STRIDE` bits left, there are only positions of the prefixes that these
  bits have. -/
  short : ∀ path c pos, root.follow path = some c →
    IpAddr.LENGTH α - STRIDE * path.length < STRIDE → testBitmap c.internal pos →
    ∃ bit cidr, cidr ≤ IpAddr.LENGTH α - STRIDE * path.length ∧ bit < 2 ^ cidr ∧
      pos = countInlBitmap bit cidr

theorem MbNode.Wf.bounded {α : Type} [IpAddr α] (h : n.Wf (IpAddr.LENGTH α)) : Bounded α n where
  depth := by
    intro path c hc
    have := (follow_spec h hc).1
    rw [STRIDE_eq, Nat.le_div_iff_mul_le (by decide)]
    omega
  bottom := by
    intro path c hc hlen
    rw [STRIDE_eq] at hlen
    have hwf := (follow_spec h hc).2
    exact members_eq_empty_iff.mp (hwf.external (by omega))
  clear := by
    intro path c hc
    obtain ⟨_, _, hclear, _, _⟩ := (follow_spec h hc).2.shaped
    exact hclear
  short := by
    intro path c pos hc hleft hset
    rw [STRIDE_eq] at hleft ⊢
    have hbound := (follow_spec h hc).2.internal (testBitmap_iff.mp hset)
    obtain ⟨t, ht, rfl⟩ := exists_inlPos_eq hbound
    exact ⟨value t, t.length, by omega, value_lt t, rfl⟩

end Nodes

/-! ## Searches -/

section Searches

variable {α : Type} [IpAddr α]

/-- `bitmap_do_search`, cut off after `fuel` nodes. -/
def doSearchWithin : ℕ → MbNode → α → Option NhiPtr → Option Nhi
  | 0, _, _, _ => none
  | fuel + 1, n, ip, longest =>
      let stride := strideOf ip
      let pos := treeFunction n.internal stride
      let longest := if pos ≠ -1 then some (pointerToNhi n pos.toNat) else longest
      if testBitmap n.external (countEnlBitmap stride) then do
        let c ← n.child (countEnlBitmap stride)
        doSearchWithin fuel c (lshift ip STRIDE) longest
      else derefLongest longest

/-- `bitmap_do_search_lazy`, cut off after `fuel` nodes. -/
def doSearchLazyWithin : ℕ → MbNode → α → LazyMark → ℕ → Option Nhi
  | 0, _, _, _, _ => none
  | fuel + 1, n, ip, lazyMark, depth =>
      let stride := strideOf ip
      if testBitmap n.external (countEnlBitmap stride) then do
        guard (depth < LEVEL α)
        let c ← n.child (countEnlBitmap stride)
        doSearchLazyWithin fuel c (lshift ip STRIDE) (Function.update lazyMark depth (n, stride))
          (depth + 1)
      else
        let pos := treeFunction n.internal stride
        if pos ≠ -1 then (pointerToNhi n pos.toNat).deref else lazyUnwind lazyMark depth

variable {d fuel : ℕ} {n : MbNode}

/-- A trie of `d` levels below the root is not left within `d + 1` nodes. -/
theorem doSearchWithin_eq (hn : n.Shaped d) (hfuel : d < fuel) (ip : α) (lg : Option NhiPtr) :
    doSearchWithin fuel n ip lg = doSearchLoop n ip lg := by
  induction fuel generalizing n d ip lg with
  | zero => exact absurd hfuel (Nat.not_lt_zero d)
  | succ fuel ih =>
      rw [doSearchWithin]
      by_cases htest : testBitmap n.external (strideOf ip)
      · obtain ⟨c, hc, hd, hshaped⟩ := hn.exists_child htest
        rw [doSearchLoop_of_child htest hc, ← ih hshaped (by omega)]
        simp only [countEnlBitmap, htest, if_true, hc, Option.bind_eq_bind, Option.bind_some]
      · rw [doSearchLoop_of_not htest]
        simp only [countEnlBitmap, if_neg htest]

theorem doSearchLazyWithin_eq (hn : n.Shaped d) (hfuel : d < fuel) (ip : α) (lazyMark : LazyMark)
    {depth : ℕ} (hdepth : depth + d < LEVEL α) :
    doSearchLazyWithin fuel n ip lazyMark depth = doSearchLazyLoop n ip lazyMark depth := by
  induction fuel generalizing n d ip lazyMark depth with
  | zero => exact absurd hfuel (Nat.not_lt_zero d)
  | succ fuel ih =>
      rw [doSearchLazyWithin]
      by_cases htest : testBitmap n.external (strideOf ip)
      · obtain ⟨c, hc, hd, hshaped⟩ := hn.exists_child htest
        have hguard : guard (depth < LEVEL α) = some () := if_pos (by omega)
        rw [doSearchLazyLoop_of_child htest hc _ (by omega),
          ← ih hshaped (by omega) _ _ (by omega)]
        simp only [countEnlBitmap, htest, if_true, hguard, hc, Option.bind_eq_bind,
          Option.bind_some]
      · rw [doSearchLazyLoop_of_not htest]
        simp only [countEnlBitmap, if_neg htest]

/-- Every search comes to an end within `LENGTH / STRIDE + 1` nodes, and does not leave the
array of marks. -/
def SearchesEnd (search : MbNode → α → Option Nhi)
    (searchLazy : LazyMark → MbNode → α → Option Nhi) (root : MbNode) : Prop :=
  ∀ ip, ∃ nhi, doSearchWithin (IpAddr.LENGTH α / STRIDE + 1) root ip none = some nhi ∧
    search root ip = some nhi ∧
    ∀ lazyMark, doSearchLazyWithin (IpAddr.LENGTH α / STRIDE + 1) root ip lazyMark 0 = some nhi ∧
      searchLazy lazyMark root ip = some nhi

theorem MbNode.Wf.searchesEnd (h : n.Wf (IpAddr.LENGTH α)) :
    SearchesEnd (α := α) doSearch doSearchLazy n := by
  intro ip
  have hshaped : n.Shaped (IpAddr.LENGTH α / STRIDE) := h.shaped
  obtain ⟨nhi, hsearch, hlazy⟩ := exists_search_eq hshaped ip
  have hlevel : 0 + IpAddr.LENGTH α / STRIDE < LEVEL α := by
    rw [LEVEL]
    omega
  refine ⟨nhi, ?_, hsearch, fun lazyMark => ⟨?_, hlazy lazyMark⟩⟩
  · rw [doSearchWithin_eq hshaped (Nat.lt_succ_self _)]
    exact hsearch
  · rw [doSearchLazyWithin_eq hshaped (Nat.lt_succ_self _) ip lazyMark hlevel]
    exact hlazy lazyMark

end Searches

/-! ## Runs -/

section Runs

variable {α : Type} [IpAddr α] [DecidableEq α]

/-- No insert and no delete of a stored prefix leaves an array: neither that of the traced
nodes nor those of the counters for each level. -/
structure UpdatesFit (insert : MbNode → Mm → α → ℕ → Nhi → Option (MbNode × Mm × ℤ))
    (delete : MbNode → Mm → α → ℕ → Bool → Option (MbNode × Mm × Bool × List Nhi))
    (T : Stored α) (root : MbNode) (m : Mm) : Prop where
  insert : ∀ (p : Prefix α) nhi, (insert root m p.ip p.cidr nhi).isSome
  delete : ∀ p ∈ T, ∀ destroyNhi, (delete root m p.ip p.cidr destroyNhi).isSome

theorem Mirrors.updatesFit {root : MbNode} {m : Mm} {T : Stored α} (h : Mirrors (root, m) T) :
    UpdatesFit (fun n m ip cidr nhi => TreeBitmap.insertPrefix m n ip cidr 0 nhi)
      (fun n m => TreeBitmap.deletePrefix m n) T root m where
  insert := by
    intro p nhi
    obtain ⟨root', m', ret, hins, -⟩ := h.insertPrefix p nhi
    rw [hins]
    rfl
  delete := by
    intro p hp d
    obtain ⟨root', m', ret, calls, hdel, -⟩ := h.deletePrefix hp d
    rw [hdel]
    rfl

/-- After any run, the trie is bounded, and nothing goes further. -/
def BoundedRuns (step : MbNode × Mm → Op α → Option (MbNode × Mm))
    (search : MbNode → α → Option Nhi) (searchLazy : LazyMark → MbNode → α → Option Nhi)
    (insert : MbNode → Mm → α → ℕ → Nhi → Option (MbNode × Mm × ℤ))
    (delete : MbNode → Mm → α → ℕ → Bool → Option (MbNode × Mm × Bool × List Nhi)) : Prop :=
  ∀ m ops, m.Succeeds → (storedMachine α).Legal ∅ ops →
    ∃ root m', ops.foldlM step (.zero, m) = some (root, m') ∧ Bounded α root ∧
      SearchesEnd search searchLazy root ∧
      UpdatesFit insert delete ((storedMachine α).exec ∅ ops) root m'

variable (α) in
theorem boundedRuns_trieStep :
    BoundedRuns (α := α) trieStep doSearch doSearchLazy
      (fun n m ip cidr nhi => insertPrefix m n ip cidr 0 nhi) fun n m => deletePrefix m n := by
  intro m ops hm hops
  obtain ⟨⟨root, m'⟩, hrun, hmir⟩ := exists_trieStep_run hm hops
  exact ⟨root, m', hrun, hmir.wf.bounded, hmir.wf.searchesEnd, hmir.updatesFit⟩

end Runs

/-- A root that updates have made out of the zero root. -/
def Reached (root : MbNode) : Prop :=
  ∃ m ops m', m.Succeeds ∧ (storedMachine IpV4).Legal ∅ ops ∧
    ops.foldlM bitmapStep (.zero, m) = some (root, m')

theorem Reached.wf {root : MbNode} (h : Reached root) : root.Wf LENGTH := by
  obtain ⟨m, ops, m', hm, hops, hrun⟩ := h
  obtain ⟨st, hrun', hmir⟩ := exists_trieStep_run hm hops
  rw [bitmapStep_eq, hrun'] at hrun
  cases hrun
  exact hmir.wf

/-- **After any run of updates**, the depth of the trie is bounded, every search comes to an end
within that bound, and no search and no update leaves an array.  A batch makes one round for
each level, in all of its lanes at once. -/
theorem runs_bounded :
    BoundedRuns bitmapStep bitmapDoSearch bitmapDoSearchLazy bitmapInsertPrefix
      bitmapDeletePrefix ∧
    BoundedRuns bitmapv6Step bitmapv6DoSearch bitmapv6DoSearchLazy bitmapv6InsertPrefix
      bitmapv6DeletePrefix ∧
    ∀ cnt ≤ BATCH, ∀ n : ℕ → MbNode, (∀ i < cnt, Reached (n i)) → ∀ lazyMark ip ret,
      ∃ ret', bitmapDoSearchLazyBatch (LENGTH / STRIDE + 2) lazyMark n ip ret cnt =
        some ret' := by
  rw [bitmapStep_eq, bitmapv6Step_eq]
  refine ⟨boundedRuns_trieStep IpV4, boundedRuns_trieStep IpV6, fun cnt hcnt n hn mark ip ret => ?_⟩
  obtain ⟨ret', hret', -⟩ :=
    searchLazyBatch_spec hcnt (fun i hi => (hn i hi).wf.shaped) mark ip ret
  exact ⟨ret', hret' _ (Nat.lt_succ_self _)⟩

theorem reached_zero : Reached .zero := ⟨mmInit simple, [], _, succeeds_mmInit_simple, trivial, rfl⟩

theorem runs_bounded_tenSlash8 :
    (∃ root m', tenOps.foldlM bitmapStep (.zero, mmInit simple) = some (root, m') ∧
      Bounded IpV4 root ∧
      SearchesEnd bitmapDoSearch bitmapDoSearchLazy root ∧
      UpdatesFit bitmapInsertPrefix bitmapDeletePrefix
        ((storedMachine IpV4).exec ∅ tenOps) root m') ∧
    ∃ ret', bitmapDoSearchLazyBatch (LENGTH / STRIDE + 2) (fun _ _ => (.zero, 0))
      (fun _ => .zero) (fun _ => 0) (fun _ => 0) 2 = some ret' :=
  ⟨runs_bounded.1 _ _ succeeds_mmInit_simple legal_tenOps,
    runs_bounded.2.2 2 (by decide) _ (fun _ _ => reached_zero) _ _ _⟩

end TreeBitmap
