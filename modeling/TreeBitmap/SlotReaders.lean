import TreeBitmap.Absent
import TreeBitmap.Batch
import TreeBitmap.Compressed
import TreeBitmap.Queries
import TreeBitmap.Traversal

/-!
# What reads the slots

All functions that read next hops of the `COMPRESS_NHI` build find them through `pointer_to_nhi`.
So over corresponding nodes they do what they do in the plain build: the lazy lookup, alone and in
a batch, the overlap search and the traversal.  `bitmap_prefix_exist` reads no next hop and is the
same function in both builds.

## Main definitions

* `Compresses.deref` — a position reads alike in both builds.
* `doSearchLazyLoop_eq`, `searchLazyBatch_of_plain`, `detectOverlapLoop_eq`,
  `mbNodeIter_eq_plain`, `prefixExist_eq_plain` — the readers, one by one.
* `Answering T c` — all of them return what a map says.
* `bitmap_run_reads` — **every reader is right** after any run of harmless updates.
-/

namespace TreeBitmap

namespace CompressNhi

open Ranked
open IpAddr (lshift rshift)

variable {α : Type} [IpAddr α] {c n d e : MbNode} {pos : ℕ}

/-- **A position reads alike** in both builds. -/
theorem Compresses.deref (h : Compresses c n) (hpos : pos ∈ members n.internal) :
    ∃ p, pointerToNhi c pos = some p ∧ p.deref = (TreeBitmap.pointerToNhi n pos).deref := by
  obtain ⟨p, hp, hderef⟩ := h.packed.deref (h.internal ▸ hpos)
  exact ⟨p, hp, hderef.trans (deref_pointerToNhi hpos).symm⟩

/-! ## The lazy lookup -/

/-- The end of a lookup at one node. -/
theorem Compresses.answer (h : Compresses c n) (stride : ℕ) {r r' : Option Nhi} (hr : r = r') :
    (if treeFunction c.internal stride ≠ -1 then
        (pointerToNhi c (treeFunction c.internal stride).toNat).bind NhiPtr.deref
      else r) =
      if treeFunction n.internal stride ≠ -1 then
        (TreeBitmap.pointerToNhi n (treeFunction n.internal stride).toNat).deref
      else r' := by
  rw [h.internal]
  split_ifs with hpos
  · obtain ⟨p, hp, hderef⟩ := h.deref (mem_of_treeFunction hpos)
    rw [hp, Option.bind_some, hderef]
  · exact hr

/-- Marks above the current depth are not looked at. -/
theorem lazyUnwind_update (lazyMark : LazyMark) (x : MbNode × ℕ) {k depth : ℕ} (hk : k ≤ depth) :
    lazyUnwind (Function.update lazyMark depth x) k = lazyUnwind lazyMark k := by
  induction k with
  | zero => rfl
  | succ k ih =>
      rw [lazyUnwind, lazyUnwind, Function.update_of_ne (by omega), ih (by omega)]

/-- The marks left at corresponding nodes. -/
theorem Compresses.lazyUnwind_mark (h : Compresses c n) (stride : ℕ) {lazyMark lazyMark' : LazyMark}
    {depth : ℕ} (hmarks : lazyUnwind lazyMark depth = TreeBitmap.lazyUnwind lazyMark' depth) :
    lazyUnwind (Function.update lazyMark depth (c, stride)) (depth + 1) =
      TreeBitmap.lazyUnwind (Function.update lazyMark' depth (n, stride)) (depth + 1) := by
  rw [lazyUnwind, TreeBitmap.lazyUnwind, Function.update_self, Function.update_self]
  refine h.answer stride ?_
  rw [lazyUnwind_update _ _ (le_refl _), TreeBitmap.lazyUnwind_update _ _ (le_refl _), hmarks]

/-- **The lazy lookup**, from corresponding nodes on. -/
theorem doSearchLazyLoop_eq (h : Compresses c n) (ip : α) {lazyMark lazyMark' : LazyMark}
    {depth : ℕ} (hmarks : lazyUnwind lazyMark depth = TreeBitmap.lazyUnwind lazyMark' depth) :
    doSearchLazyLoop c ip lazyMark depth = TreeBitmap.doSearchLazyLoop n ip lazyMark' depth := by
  induction h generalizing ip lazyMark lazyMark' depth with
  | @intro c n layout external internal length packed kids ih =>
      have h : Compresses c n := .intro layout external internal length packed kids
      rw [doSearchLazyLoop]
      by_cases hmem : strideOf ip ∈ members n.external
      · obtain ⟨e, he⟩ := TreeBitmap.exists_kid layout hmem
        obtain ⟨d, hd, -⟩ := h.exists_kid he
        have hchild : c.child (strideOf ip) = some d := load_nextChild hd
        have htest := testBitmap_iff.mpr hmem
        by_cases hdepth : depth < LEVEL α
        · rw [TreeBitmap.doSearchLazyLoop_of_child htest (load_nextChild he) _ hdepth]
          simp only [countEnlBitmap, external, htest, if_true, if_pos hdepth]
          split
          · rename_i d' hd'
            obtain rfl := Option.some.inj (hchild.symm.trans hd')
            exact ih _ _ _ hd he _ (h.lazyUnwind_mark _ hmarks)
          · rename_i hnone
            rw [hchild] at hnone
            cases hnone
        · rw [TreeBitmap.doSearchLazyLoop]
          simp only [countEnlBitmap, external, htest, if_true, if_neg hdepth]
      · have htest : ¬ testBitmap n.external (strideOf ip) := fun ht => hmem (testBitmap_iff.mp ht)
        rw [TreeBitmap.doSearchLazyLoop_of_not htest, countEnlBitmap, external, if_neg htest]
        exact h.answer _ hmarks

/-! ## The batch -/

/-- The lanes of both builds: corresponding nodes, the same addresses, and marks that hold the same
next hops. -/
structure LanesAgree (st' st : BatchLanes) : Prop where
  node : ∀ i, Compresses (st.n i) (st'.n i)
  ip : st.ip = st'.ip
  stride : st.stride = st'.stride
  travelDepth : st.travelDepth = st'.travelDepth
  marks : ∀ i, lazyUnwind (st.lazyMark i) (st.travelDepth i) =
    TreeBitmap.lazyUnwind (st'.lazyMark i) (st'.travelDepth i)
  endcnt : st.endcnt = st'.endcnt

/-- One lane in one round. -/
theorem LanesAgree.descend {st st' st₁' : BatchLanes} (h : LanesAgree st' st) {i : ℕ}
    (hstep : batchDescend st' i = some st₁') :
    ∃ st₁, batchDescend st i = some st₁ ∧ LanesAgree st₁' st₁ := by
  obtain ⟨hnode, hip, hstride, hdepth, hmarks, hend⟩ := h
  simp only [batchDescend, Option.bind_eq_bind, hip, hstride, hdepth, hend,
    (hnode i).external] at hstep ⊢
  obtain ⟨_, hlane, hstep⟩ := Option.bind_eq_some_iff.mp hstep
  rw [hlane, Option.bind_some]
  split_ifs at hstep ⊢ with htest
  · obtain ⟨_, hlevel, hstep⟩ := Option.bind_eq_some_iff.mp hstep
    obtain ⟨e, he, hstep⟩ := Option.bind_eq_some_iff.mp hstep
    obtain rfl := Option.some.inj hstep
    have hmem := testBitmap_iff.mp htest
    rw [child_eq_kid hmem] at he
    obtain ⟨d, hd, hde⟩ := (hnode i).exists_kid he
    have hchild : (st.n i).child (countEnlBitmap (st'.stride i)) = some d := load_nextChild hd
    simp only [hlevel, hchild, Option.bind_some]
    refine ⟨_, rfl, fun j => ?_, rfl, rfl, rfl, fun j => ?_, rfl⟩
    · by_cases hj : j = i
      · simpa only [hj, Function.update_self] using hde
      · simpa only [Function.update_of_ne hj] using hnode j
    · have hmark := (hnode i).lazyUnwind_mark (st'.stride i) (hdepth ▸ hmarks i)
      by_cases hj : j = i
      · simpa only [hj, Function.update_self] using hmark
      · simpa only [Function.update_of_ne hj, hdepth] using hmarks j
  · obtain rfl := Option.some.inj hstep
    exact ⟨_, rfl, hnode, rfl, rfl, rfl, fun j => by simpa only [hdepth] using hmarks j, rfl⟩

/-- One round of stage 1. -/
theorem LanesAgree.round {st st' st₁' : BatchLanes} (h : LanesAgree st' st) {cnt : ℕ}
    (hround : (List.range cnt).foldlM batchDescend st' = some st₁') :
    ∃ st₁, (List.range cnt).foldlM batchDescend st = some st₁ ∧ LanesAgree st₁' st₁ :=
  Run.foldlM_range_follow (fun _ => LanesAgree) h (fun _ _ _ _ _ h hstep => h.descend hstep) hround

theorem LanesAgree.batchAnswer_eq {st st' : BatchLanes} (h : LanesAgree st' st) (i : ℕ) :
    batchAnswer st i = TreeBitmap.batchAnswer st' i := by
  rw [batchAnswer, h.stride]
  exact (h.node i).answer (st'.stride i) (h.marks i)

/-- **The batch** gives the same answers. -/
theorem searchLazyBatch_of_plain {root root' : ℕ → MbNode}
    (h : ∀ i, Compresses (root i) (root' i)) {fuel cnt : ℕ} {lazyMark : ℕ → LazyMark}
    {ip : ℕ → IpV4} {ret ret' : ℕ → Nhi}
    (hbatch : TreeBitmap.bitmapDoSearchLazyBatch fuel lazyMark root' ip ret cnt = some ret') :
    bitmapDoSearchLazyBatch fuel lazyMark root ip ret cnt = some ret' := by
  obtain ⟨st', hloop, hbatch⟩ := Option.bind_eq_some_iff.mp hbatch
  have hstart : LanesAgree ⟨root', ip, fun i => strideOf (ip i), fun _ => 0, lazyMark, 0#64⟩
      ⟨root, ip, fun i => strideOf (ip i), fun _ => 0, lazyMark, 0#64⟩ :=
    ⟨h, rfl, rfl, rfl, fun _ => rfl, rfl⟩
  have hcond : ∀ st' st : BatchLanes, LanesAgree st' st →
      (st.endcnt != (1#64 <<< cnt) - 1) = (st'.endcnt != (1#64 <<< cnt) - 1) :=
    fun st' st h => by rw [h.endcnt]
  obtain ⟨st, hloop', hst⟩ := Run.whileLoop_follow LanesAgree hcond
    (fun _ _ _ h hround => h.round hround) hstart hloop
  rw [bitmapDoSearchLazyBatch, hloop', Option.bind_eq_bind, Option.bind_some]
  simp only [hst.batchAnswer_eq]
  exact hbatch

/-! ## The overlap search -/

theorem mem_of_findOverlapLoop {b : Bitmap} {k stride mask : ℕ} {r : ℤ × ℕ}
    (h : findOverlapLoop b k stride mask = r) (hr : r.1 ≠ -1) : r.1.toNat ∈ members b := by
  induction k generalizing stride mask with
  | zero =>
      rw [findOverlapLoop] at h
      exact absurd (h ▸ rfl) hr
  | succ k ih =>
      rw [findOverlapLoop] at h
      by_cases htest : testBitmap b (countInlBitmap (stride >>> 1) k)
      · rw [if_pos htest] at h
        rw [← h, Int.toNat_natCast]
        exact testBitmap_iff.mp htest
      · rw [if_neg htest] at h
        exact ih h

theorem mem_of_findOverlapInNode {b : Bitmap} {stride mask limit : ℕ}
    (h : (findOverlapInNode b stride mask limit).1 ≠ -1) :
    (findOverlapInNode b stride mask limit).1.toNat ∈ members b := by
  rw [findOverlapInNode] at h ⊢
  split_ifs at h ⊢ with hb
  · exact absurd rfl h
  · exact mem_of_findOverlapLoop rfl h

/-- What the loops hold: no next hop, or pointers that read alike. -/
def PtrsAgree (p p' : Option NhiPtr) : Prop := p.map NhiPtr.deref = p'.map NhiPtr.deref

/-- One round of the overlap search at corresponding nodes. -/
theorem Compresses.round (h : Compresses c n) (stride mask limit curr orgLimit finalMask : ℕ)
    {lg lg' : Option NhiPtr} (hlg : PtrsAgree lg lg') :
    ∃ mask' lg₁ lg₁',
      (if (findOverlapInNode n.internal stride mask limit).1 ≠ -1 ∧ curr < orgLimit then
          (pointerToNhi c (findOverlapInNode n.internal stride mask limit).1.toNat).bind fun p =>
            some (curr, some p)
        else some (finalMask, lg)) = some (mask', lg₁) ∧
      (if (findOverlapInNode n.internal stride mask limit).1 ≠ -1 ∧ curr < orgLimit then
          (curr, some (TreeBitmap.pointerToNhi n
            (findOverlapInNode n.internal stride mask limit).1.toNat))
        else (finalMask, lg')) = (mask', lg₁') ∧
      PtrsAgree lg₁ lg₁' := by
  split_ifs with hfound
  · obtain ⟨p, hp, hderef⟩ := h.deref (mem_of_findOverlapInNode hfound.1)
    refine ⟨curr, some p, _, by rw [hp, Option.bind_some], rfl, ?_⟩
    rw [PtrsAgree, Option.map_some, Option.map_some, hderef]
  · exact ⟨finalMask, lg, lg', rfl, rfl, hlg⟩

/-- **The loop of the overlap search**, from corresponding nodes on. -/
theorem detectOverlapLoop_eq (h : Compresses c n) (orgLimit : ℕ) (ip : α)
    (limit step mask finalMask : ℕ) {lg lg' : Option NhiPtr} (hlg : PtrsAgree lg lg') :
    (detectOverlapLoop orgLimit c ip limit step mask finalMask lg).map
        (fun r => (r.1, r.2.map NhiPtr.deref)) =
      (TreeBitmap.detectOverlapLoop orgLimit n ip limit step mask finalMask lg').map
        (fun r => (r.1, r.2.map NhiPtr.deref)) := by
  induction h generalizing ip limit step mask finalMask lg lg' with
  | @intro c n layout external internal length packed kids ih =>
      have h : Compresses c n := .intro layout external internal length packed kids
      rw [detectOverlapLoop, TreeBitmap.detectOverlapLoop]
      by_cases hlimit : limit = 0
      · rw [if_pos hlimit, if_pos hlimit, Option.map_some, Option.map_some, hlg]
      · rw [if_neg hlimit, if_neg hlimit]
        set inside := if STRIDE < limit then STRIDE else limit
        set found := findOverlapInNode n.internal (strideOf ip) mask inside with hfound
        obtain ⟨mask', lg₁, lg₁', hround, hround', hlg₁⟩ := h.round (strideOf ip) mask inside
          (u8 (step * STRIDE + found.2)) orgLimit finalMask hlg
        rw [← hfound] at hround hround'
        simp only [internal, ← hfound, Option.bind_eq_bind, hround, hround', Option.bind_some,
          external]
        by_cases hmem : strideOf ip ∈ members n.external
        · obtain ⟨e, he⟩ := TreeBitmap.exists_kid layout hmem
          obtain ⟨d, hd, -⟩ := h.exists_kid he
          have hchild : c.child (strideOf ip) = some d := load_nextChild hd
          have hchild' : n.child (strideOf ip) = some e := load_nextChild he
          simp only [countEnlBitmap, if_pos (testBitmap_iff.mpr hmem), hchild, hchild',
            Option.bind_some]
          exact ih _ _ _ hd he _ _ _ _ _ hlg₁
        · have htest : ¬ testBitmap n.external (strideOf ip) := fun ht =>
            hmem (testBitmap_iff.mp ht)
          simp only [countEnlBitmap, if_neg htest, Option.map_some]
          rw [hlg₁]

/-- **The overlap search**. -/
theorem detectOverlapGeneric_eq (h : Compresses c n) (ip : α) (cidr bitsLimit : ℕ) :
    detectOverlapGeneric c ip cidr bitsLimit =
      TreeBitmap.detectOverlapGeneric n ip cidr bitsLimit := by
  have hnone : PtrsAgree none none := rfl
  have hloop := detectOverlapLoop_eq h (if bitsLimit < cidr then bitsLimit else cidr) ip
    (if bitsLimit < cidr then bitsLimit else cidr) 0 0 0 hnone
  rw [detectOverlapGeneric, TreeBitmap.detectOverlapGeneric]
  simp only [Option.bind_eq_bind]
  rcases hc : detectOverlapLoop (if bitsLimit < cidr then bitsLimit else cidr) c ip
    (if bitsLimit < cidr then bitsLimit else cidr) 0 0 0 none with _ | ⟨fm, lg⟩
  · rw [hc, Option.map_none, eq_comm, Option.map_eq_none_iff] at hloop
    rw [hloop]
  · rw [hc, Option.map_some, eq_comm, Option.map_eq_some_iff] at hloop
    obtain ⟨⟨fm', lg'⟩, hn, heq⟩ := hloop
    obtain ⟨rfl, hlg⟩ := Prod.mk.inj heq
    rw [hn, Option.bind_some, Option.bind_some]
    by_cases hmask : fm' ≠ 0
    · rw [if_pos hmask, if_pos hmask]
      cases lg with
      | none =>
          obtain rfl := Option.map_eq_none_iff.mp hlg
          rfl
      | some p =>
          obtain ⟨p', rfl, hderef⟩ := Option.map_eq_some_iff.mp hlg
          rw [Option.bind_some, Option.bind_some, hderef]
    · rw [if_neg hmask, if_neg hmask]

/-! ## The traversal -/

section Iter

variable {β : Type} {orShifted : β → ℕ → ℕ → β}

theorem Compresses.iterRule_eq (h : Compresses c n) (ip : β) (w k : ℕ) :
    iterRule orShifted c ip w k = TreeBitmap.iterRule orShifted n ip w k := by
  funext calls cidr bit
  rw [iterRule, TreeBitmap.iterRule, h.internal]
  by_cases htest : testBitmap n.internal (countInlBitmap bit cidr)
  · obtain ⟨p, hp, hderef⟩ := h.deref (testBitmap_iff.mp htest)
    simp only [if_pos htest, hp, hderef, Option.bind_eq_bind, Option.bind_some]
  · simp only [if_neg htest]

/-- The body of the second loop. -/
def iterKid (orShifted : β → ℕ → ℕ → β) (c : MbNode) (ip : β) (w k : ℕ)
    (calls : List (Report β)) (pos : ℕ) : Option (List (Report β)) :=
  if testBitmap c.external pos then do
    let next ← c.child pos
    let more ← mbNodeIter orShifted next (orShifted ip pos (sub32 w STRIDE)) (sub32 w STRIDE)
      ((k + STRIDE) % 2 ^ 32)
    some (calls ++ more)
  else some calls

theorem mbNodeIter_eq (c : MbNode) (ip : β) (w k : ℕ) :
    mbNodeIter orShifted c ip w k = (do
      let calls ← (List.range STRIDE).foldlM (fun calls cidr =>
        (List.range (2 ^ cidr)).foldlM (fun calls bit =>
          iterRule orShifted c ip w k calls cidr bit) calls) []
      (List.range (2 ^ STRIDE)).foldlM (iterKid orShifted c ip w k) calls) := by
  rw [mbNodeIter]
  congr 1
  funext calls
  congr 1
  funext calls pos
  simp only [iterKid, countEnlBitmap]
  by_cases htest : testBitmap c.external pos
  · rw [if_pos htest, if_pos htest]
    split
    · rename_i next hnext
      rw [hnext]
      rfl
    · rename_i hnone
      rw [hnone]
      rfl
  · rw [if_neg htest, if_neg htest]

/-- **The traversal** makes the same calls. -/
theorem mbNodeIter_eq_plain (h : Compresses c n) (ip : β) (w k : ℕ) :
    mbNodeIter orShifted c ip w k = TreeBitmap.mbNodeIter orShifted n ip w k := by
  induction h generalizing ip w k with
  | @intro c n layout external internal length packed kids ih =>
      have h : Compresses c n := .intro layout external internal length packed kids
      have hkid : iterKid orShifted c ip w k = TreeBitmap.iterKid orShifted n ip w k := by
        funext calls pos
        rw [iterKid, TreeBitmap.iterKid, external]
        by_cases hmem : pos ∈ members n.external
        · obtain ⟨e, he⟩ := TreeBitmap.exists_kid layout hmem
          obtain ⟨d, hd, -⟩ := h.exists_kid he
          have hchild : c.child pos = some d := load_nextChild hd
          have hchild' : n.child pos = some e := load_nextChild he
          simp only [if_pos (testBitmap_iff.mpr hmem), hchild, hchild', Option.bind_eq_bind,
            Option.bind_some, ih pos d e hd he]
        · have htest : ¬ testBitmap n.external pos := fun ht => hmem (testBitmap_iff.mp ht)
          rw [if_neg htest, if_neg htest]
      rw [mbNodeIter_eq, TreeBitmap.mbNodeIter_eq, h.iterRule_eq, hkid]

end Iter

/-! ## The branch of a prefix -/

/-- The result of `prefix_exist_func`, at corresponding nodes. -/
theorem Compresses.traverse_exist (h : Compresses c n) (ip : α) (cidr : ℕ) :
    (traverseBranch prefixExistFunc c ip cidr ()).map Prod.fst =
      (traverseBranch prefixExistFunc n ip cidr ()).map Prod.fst := by
  induction cidr using Nat.strong_induction_on generalizing c n ip with
  | _ cidr ih =>
      by_cases hlt : cidr < STRIDE
      · rw [traverseBranch, traverseBranch, if_pos hlt, if_pos hlt, prefixExistFunc,
          prefixExistFunc, h.internal]
        split_ifs <;> rfl
      · rw [traverseBranch, traverseBranch, if_neg hlt, if_neg hlt]
        simp only [countEnlBitmap, prefixExistFunc, h.external]
        by_cases hmem : strideOf ip ∈ members n.external
        · obtain ⟨e, he⟩ := TreeBitmap.exists_kid h.layout hmem
          obtain ⟨d, hd, hde⟩ := h.exists_kid he
          have hchild : c.child (strideOf ip) = some d := load_nextChild hd
          have hchild' : n.child (strideOf ip) = some e := load_nextChild he
          have hrec := ih (cidr - STRIDE) (by rw [STRIDE_eq] at *; omega) hde (lshift ip STRIDE)
          rw [if_neg (not_not.mpr (testBitmap_iff.mpr hmem)),
            if_neg (not_not.mpr (testBitmap_iff.mpr hmem))]
          simp only [Option.bind_eq_bind, Option.bind_some, ne_eq, not_true_eq_false, if_false,
            hchild, hchild']
          rcases hn : traverseBranch prefixExistFunc e (lshift ip STRIDE) (cidr - STRIDE) ()
            with _ | ⟨ret, e', data⟩
          · rw [hn, Option.map_none, Option.map_eq_none_iff] at hrec
            simp only [hrec, Option.bind_none]
          · rw [hn, Option.map_some, Option.map_eq_some_iff] at hrec
            obtain ⟨⟨ret', d', data'⟩, hc, hret⟩ := hrec
            have hset := setChild_eq_putChild h.children_length (h.external ▸ hmem) d'
            have hset' := setChild_eq_putChild h.layout.children_length hmem e'
            simp only [hc, hset, hset', Option.bind_some, Option.map_some]
            exact congrArg some hret
        · have htest : ¬ testBitmap n.external (strideOf ip) := fun ht =>
            hmem (testBitmap_iff.mp ht)
          rw [if_pos htest, if_pos htest]
          rfl

/-- **`bitmap_prefix_exist`** looks at the bitmaps only. -/
theorem prefixExist_eq_plain (h : Compresses c n) (ip : α) (cidr : ℕ) :
    prefixExist c ip cidr = prefixExist n ip cidr := by
  have htraverse := h.traverse_exist ip cidr
  rw [prefixExist, prefixExist]
  rcases hn : traverseBranch prefixExistFunc n ip cidr () with _ | ⟨ret, n', data⟩
  · rw [hn, Option.map_none, Option.map_eq_none_iff] at htraverse
    rw [htraverse]
  · rw [hn, Option.map_some, Option.map_eq_some_iff] at htraverse
    obtain ⟨⟨ret', c', data'⟩, hc, hret⟩ := htraverse
    rw [hc, Option.bind_eq_bind, Option.bind_some, Option.bind_some]
    exact congrArg some hret

/-! ## Runs -/

/-- Every reader of a trie returns what the map `T` says. -/
structure Answering (T : Stored IpV4) (c : MbNode) : Prop where
  search : ∀ a, ∃ r, bitmapDoSearch c a = some r ∧ T.Answers a r
  searchLazy : ∀ lazyMark a, ∃ r, bitmapDoSearchLazy lazyMark c a = some r ∧ T.Answers a r
  searchBatch : ∀ lazyMark ip ret cnt, cnt ≤ BATCH → ∃ ret',
    (∀ fuel, LEVEL IpV4 < fuel →
      bitmapDoSearchLazyBatch fuel lazyMark (fun _ => c) ip ret cnt = some ret') ∧
    ∀ i < cnt, T.Answers (ip i) (ret' i)
  nearest : ∀ (p : Prefix IpV4) bitsLimit, ∃ L nhiOver,
    bitmapDetectOverlapGeneric c p.ip p.cidr bitsLimit = some (L, nhiOver) ∧
      T.Nearest p bitsLimit L nhiOver
  exist : ∀ p : Prefix IpV4,
    bitmapPrefixExist c p.ip p.cidr = some (if p ∈ T then 1 else 0)
  iter : ∃ calls, bitmapMbNodeIter c 0 32 0 = some calls ∧
    (calls : Multiset (Report IpV4)) = T.reports Prefix.ip

/-- Where the builds agree, this one reads as the plain one does. -/
theorem Agree.reads {st st' : MbNode × Mm} {T : Stored IpV4} (h : Agree st st' T) :
    Answering T st.1 where
  search a := by
    obtain ⟨r, hr, hans⟩ := h.mirrors.answers a
    exact ⟨r, (doSearchLoop_eq h.compresses a none none rfl).trans hr, hans⟩
  searchLazy lazyMark a := by
    have hlazy := doSearchLazy_eq h.mirrors.wf (IpAddr.length_bits a) (spells_bits a) lazyMark
    have hmarks : lazyUnwind lazyMark 0 = TreeBitmap.lazyUnwind lazyMark 0 := rfl
    obtain ⟨r, hr, hans⟩ := h.mirrors.answers a
    rw [doSearch_eq h.mirrors.wf a, ← hlazy] at hr
    exact ⟨r, (doSearchLazyLoop_eq h.compresses a hmarks).trans hr, hans⟩
  searchBatch lazyMark ip ret cnt hcnt := by
    obtain ⟨ret', hbatch, hret⟩ := searchLazyBatch_spec hcnt (n := fun _ => st'.1)
      (fun _ _ => h.mirrors.wf.shaped.mono (by decide)) lazyMark ip ret
    refine ⟨ret', fun fuel hfuel => searchLazyBatch_of_plain (fun _ => h.compresses)
      (hbatch fuel hfuel), fun i hi => ?_⟩
    obtain ⟨r, hr, hans⟩ := h.mirrors.answers (ip i)
    obtain rfl := Option.some.inj ((hret i hi).symm.trans hr)
    exact hans
  nearest p bitsLimit := by
    obtain ⟨L, nhiOver, hdetect, hnear⟩ := h.mirrors.nearest p bitsLimit
    exact ⟨L, nhiOver, (detectOverlapGeneric_eq h.compresses _ _ _).trans hdetect, hnear⟩
  exist p := (prefixExist_eq_plain h.compresses p.ip p.cidr).trans (h.mirrors.exist p)
  iter := by
    obtain ⟨calls, hiter, hcalls⟩ := h.mirrors.bitmapMbNodeIter
    exact ⟨calls, (mbNodeIter_eq_plain h.compresses 0 32 0).trans hiter, hcalls⟩

end CompressNhi

end TreeBitmap
