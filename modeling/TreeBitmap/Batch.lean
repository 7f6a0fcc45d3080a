import TreeBitmap.Engines
import Mathlib.Data.Nat.Count

/-!
# Lazy and batched lookup

The eager, the lazy and the batched lookup read the same nodes.  They agree on every
trie whose arrays fit its bitmaps, whether or not updates can make such a trie: below
any node, they find the same next hop or nothing, and in the latter case the eager one
has its match so far to fall back on and the lazy one its marks.

In a batch, one round takes every lane down by one node.  A lane that cannot go down
sets its bit, and is asked again in every round that the others still need.

## Main definitions

* `MbNode.Shaped d` — a trie of at most `d` levels below its root.
* `exists_answer`, `searchLazy_eq_search` — **lazy is eager**.
* `Lane` — one lane of a batch after `k` rounds.
* `searchBatch_eq_search` — **batched is single**.
-/

namespace TreeBitmap

open BitString LongestMatch Ranked

/-- A trie of at most `d` levels below its root.  The arrays have an entry for each bit of
the bitmaps, and the last bit of `internal`, which no prefix has, is clear. -/
inductive MbNode.Shaped : ℕ → MbNode → Prop
  | intro {d : ℕ} {n : MbNode} (rules : n.rules.length = popcount n.internal)
      (children : n.children.length = popcount n.external)
      (clear : testBitmap n.internal 63 = false)
      (bottom : d = 0 → n.children = [])
      (kids : ∀ c ∈ n.children, MbNode.Shaped (d - 1) c) : MbNode.Shaped d n

namespace MbNode.Shaped

variable {d e : ℕ} {n c : MbNode} {pos : ℕ}

theorem rules_length (h : n.Shaped d) : n.rules.length = (members n.internal).card := by
  cases h with
  | intro rules => rw [rules, popcount_eq_card]

theorem children_length (h : n.Shaped d) : n.children.length = (members n.external).card := by
  cases h with
  | intro _ children => rw [children, popcount_eq_card]

/-- A child that the bitmap promises is there. -/
theorem exists_child (h : n.Shaped d) (hpos : testBitmap n.external pos) :
    ∃ c, n.child pos = some c ∧ 1 ≤ d ∧ c.Shaped (d - 1) := by
  have hmem := testBitmap_iff.mp hpos
  obtain ⟨c, hc⟩ := Option.isSome_iff_exists.mp (lookup_isSome h.children_length hmem)
  have hchild : n.child pos = some c := (child_eq_kid hmem).trans hc
  have hin := MbNode.child_mem hchild
  cases h with
  | intro _ _ _ bottom kids =>
      refine ⟨c, hchild, ?_, kids c hin⟩
      by_contra hd
      rw [bottom (by omega)] at hin
      exact List.not_mem_nil hin

theorem mono (h : n.Shaped d) (hde : d ≤ e) : n.Shaped e := by
  induction h generalizing e with
  | intro rules children clear bottom kids ih =>
      refine .intro rules children clear (fun he => bottom (by omega)) fun c hc => ?_
      exact ih c hc (by omega)

end MbNode.Shaped

/-- A trie for `w` bits of an address is as deep as the strides in them. -/
theorem MbNode.Wf.shaped {w : ℕ} {n : MbNode} (h : n.Wf w) : n.Shaped (w / 6) := by
  induction w using Nat.strong_induction_on generalizing n with
  | _ w ih =>
      have hchildren := h.layout.children_length
      have hclear : testBitmap n.internal 63 = false := by
        apply Bool.eq_false_iff.mpr
        intro hset
        have hlt := h.internal (testBitmap_iff.mp hset)
        have hpow : 2 ^ (min w 5 + 1) ≤ 2 ^ 6 := Nat.pow_le_pow_right (by decide) (by omega)
        omega
      have hbottom : w < 6 → n.children = [] := by
        intro hw
        rw [h.external hw, Finset.card_empty] at hchildren
        exact List.length_eq_zero_iff.mp hchildren
      refine .intro ?_ ?_ hclear (fun hw => hbottom (by omega)) fun c hc => ?_
      · rw [h.layout.rules_length, popcount_eq_card]
      · rw [hchildren, popcount_eq_card]
      · have hw : 6 ≤ w := by
          by_contra hlt
          rw [hbottom (by omega)] at hc
          exact List.not_mem_nil hc
        have hdiv : w / 6 - 1 = (w - 6) / 6 := by omega
        rw [hdiv]
        exact ih (w - 6) (by omega) (h.kids_of_mem hc)

/-! ## Lazy lookup -/

section Lazy

variable {α : Type} [IpAddr α]

theorem exists_stride (ip : α) : ∃ t : List Bool, t.length = 6 ∧ strideOf ip = value t := by
  have hlen := IpAddr.le_length (α := α)
  refine ⟨(IpAddr.bits ip).take 6, ?_, strideOf_eq ip⟩
  rw [List.length_take, IpAddr.length_bits]
  omega

/-- **Below a node, both lookups find the same**, or both find nothing. -/
theorem exists_answer {d : ℕ} {n : MbNode} (hn : n.Shaped d) (ip : α) :
    ∃ r : Option Nhi, (∀ lg, doSearchLoop n ip lg = r.elim (derefLongest lg) some) ∧
      ∀ lazyMark depth, depth + d < LEVEL α →
        doSearchLazyLoop n ip lazyMark depth = r.elim (lazyUnwind lazyMark depth) some := by
  induction d generalizing n ip with
  | zero =>
      obtain ⟨t, ht, hstride⟩ := exists_stride ip
      have hfalse : ¬ testBitmap n.external (strideOf ip) := by
        intro h
        obtain ⟨c, -, hd, -⟩ := hn.exists_child h
        omega
      refine ⟨lpm n.get t.dropLast, fun lg => ?_, fun lazyMark depth _ => ?_⟩
      · rw [doSearchLoop_of_not hfalse, hstride, derefLongest_step hn.rules_length ht]
      · rw [doSearchLazyLoop_of_not hfalse, hstride, lazy_step hn.rules_length ht]
  | succ d ih =>
      obtain ⟨t, ht, hstride⟩ := exists_stride ip
      by_cases htest : testBitmap n.external (strideOf ip)
      · obtain ⟨c, hc, -, hshaped⟩ := hn.exists_child htest
        obtain ⟨r, heager, hlazy⟩ := ih hshaped (IpAddr.lshift ip STRIDE)
        refine ⟨r.or (lpm n.get t.dropLast), fun lg => ?_, fun lazyMark depth hdepth => ?_⟩
        · rw [doSearchLoop_of_child htest hc, heager, hstride,
            derefLongest_step hn.rules_length ht]
          cases r <;> rfl
        · rw [doSearchLazyLoop_of_child htest hc _ (by omega), hlazy _ _ (by omega), hstride,
            lazyUnwind_mark hn.rules_length ht]
          cases r <;> rfl
      · refine ⟨lpm n.get t.dropLast, fun lg => ?_, fun lazyMark depth _ => ?_⟩
        · rw [doSearchLoop_of_not htest, hstride, derefLongest_step hn.rules_length ht]
        · rw [doSearchLazyLoop_of_not htest, hstride, lazy_step hn.rules_length ht]

/-- Lazy lookup is eager lookup, and neither leaves an array. -/
theorem exists_search_eq {n : MbNode} (hn : n.Shaped (IpAddr.LENGTH α / STRIDE)) (ip : α) :
    ∃ nhi, doSearch n ip = some nhi ∧ ∀ lazyMark, doSearchLazy lazyMark n ip = some nhi := by
  obtain ⟨r, heager, hlazy⟩ := exists_answer hn ip
  refine ⟨r.getD 0, ?_, fun lazyMark => ?_⟩
  · rw [doSearch, heager]
    cases r <;> rfl
  · have hlevel : 0 + IpAddr.LENGTH α / STRIDE < LEVEL α := by
      rw [LEVEL]
      omega
    rw [doSearchLazy, hlazy _ _ hlevel]
    cases r <;> rfl

end Lazy

/-- **`bitmap_do_search_lazy` is `bitmap_do_search`**, and `bitmapv6_do_search_lazy` is
`bitmapv6_do_search`, on every trie of fitting shape and whatever the marks hold. -/
theorem searchLazy_eq_search {n nv6 : MbNode} (hn : n.Shaped (LENGTH / STRIDE))
    (hnv6 : nv6.Shaped (LENGTH_v6 / STRIDE)) :
    (∀ ip, ∃ nhi, bitmapDoSearch n ip = some nhi ∧
      ∀ lazyMark, bitmapDoSearchLazy lazyMark n ip = some nhi) ∧
    ∀ ip, ∃ nhi, bitmapv6DoSearch nv6 ip = some nhi ∧
      ∀ lazyMark, bitmapv6DoSearchLazy lazyMark nv6 ip = some nhi :=
  ⟨exists_search_eq (α := IpV4) hn, exists_search_eq (α := IpV6) hnv6⟩

/-- A chain of two nodes, of which the lower one holds a default route.  No update leaves
the empty child beside it. -/
def sparseTrie : MbNode :=
  ⟨3, 0, some ⟨0, 0⟩, [], [.zero, ⟨0, 1, some ⟨1, 1⟩, [7], []⟩]⟩

theorem shaped_sparseTrie {d : ℕ} (hd : 1 ≤ d) : sparseTrie.Shaped d := by
  have hzero : MbNode.zero.Shaped (d - 1) :=
    .intro (by decide) (by decide) (by decide) (fun _ => rfl) fun c hc => absurd hc List.not_mem_nil
  have hleaf : MbNode.Shaped (d - 1) ⟨0, 1, some ⟨1, 1⟩, [7], []⟩ :=
    .intro (by decide) (by decide) (by decide) (fun _ => rfl) fun c hc => absurd hc List.not_mem_nil
  refine .intro (by decide) (by decide) (by decide) (fun h => by omega) fun c hc => ?_
  rcases List.mem_cons.mp hc with rfl | hc
  · exact hzero
  · rw [List.mem_singleton.mp hc]
    exact hleaf

theorem searchLazy_eq_search_sparseTrie :
    (∀ ip, ∃ nhi, bitmapDoSearch sparseTrie ip = some nhi ∧
      ∀ lazyMark, bitmapDoSearchLazy lazyMark sparseTrie ip = some nhi) ∧
    ∀ ip, ∃ nhi, bitmapv6DoSearch sparseTrie ip = some nhi ∧
      ∀ lazyMark, bitmapv6DoSearchLazy lazyMark sparseTrie ip = some nhi :=
  searchLazy_eq_search (shaped_sparseTrie (by decide)) (shaped_sparseTrie (by decide))

/-! ## Lanes -/

theorem members_endMask : ∀ cnt ≤ BATCH, members ((1#64 <<< cnt) - 1) = Finset.range cnt := by
  decide +kernel

/-- One lane of a batch after `k` rounds, if its trie has at most `D` levels: the lazy
lookup from here on gives `nhi`; it is as far down as rounds were made, or done. -/
structure Lane (D k : ℕ) (nhi : Nhi) (st : BatchLanes) (i : ℕ) : Prop where
  answer : doSearchLazyLoop (st.n i) (st.ip i) (st.lazyMark i) (st.travelDepth i) = some nhi
  stride : st.stride i = strideOf (st.ip i)
  going : i ∉ members st.endcnt → k ≤ D ∧ (st.n i).Shaped (D - k) ∧ st.travelDepth i ≤ k
  done : i ∈ members st.endcnt → ¬ testBitmap (st.n i).external (countEnlBitmap (st.stride i))

/-- What a lane sees of the arrays. -/
structure SameLane (st st' : BatchLanes) (i : ℕ) : Prop where
  n : st'.n i = st.n i
  ip : st'.ip i = st.ip i
  stride : st'.stride i = st.stride i
  travelDepth : st'.travelDepth i = st.travelDepth i
  lazyMark : st'.lazyMark i = st.lazyMark i
  endcnt : i ∈ members st'.endcnt ↔ i ∈ members st.endcnt

section Lanes

variable {D k i : ℕ} {nhi : Nhi} {st st' : BatchLanes}

theorem Lane.of_same (h : Lane D k nhi st i) (hsame : SameLane st st' i) : Lane D k nhi st' i := by
  obtain ⟨hn, hip, hstride, hdepth, hmark, hend⟩ := hsame
  refine ⟨?_, ?_, ?_, ?_⟩
  · rw [hn, hip, hmark, hdepth]
    exact h.answer
  · rw [hstride, hip]
    exact h.stride
  · rw [hend, hn, hdepth]
    exact h.going
  · rw [hend, hn, hstride]
    exact h.done

/-- **One lane in one round.** -/
theorem batchDescend_spec (hi : i < BATCH) (hD : D < LEVEL IpV4) (h : Lane D k nhi st i) :
    ∃ st', batchDescend st i = some st' ∧ Lane D (k + 1) nhi st' i ∧
      (∀ j, j ≠ i → SameLane st st' j) ∧ members st'.endcnt ⊆ insert i (members st.endcnt) := by
  have hguard : guard (i < BATCH) = some () := if_pos hi
  rw [batchDescend, hguard, Option.bind_eq_bind, Option.bind_some]
  by_cases htest : testBitmap (st.n i).external (countEnlBitmap (st.stride i))
  · have hend : i ∉ members st.endcnt := fun hmem => h.done hmem htest
    obtain ⟨hk, hshaped, hdepth⟩ := h.going hend
    obtain ⟨c, hc, hpos, hcs⟩ := hshaped.exists_child htest
    have hlevel : st.travelDepth i < LEVEL IpV4 := by omega
    have hguard' : guard (st.travelDepth i < LEVEL IpV4) = some () := if_pos hlevel
    have hdown : D - k - 1 = D - (k + 1) := by omega
    simp only [htest, if_true, hguard', hc, Option.bind_eq_bind, Option.bind_some]
    refine ⟨_, rfl, ⟨?_, ?_, ?_, ?_⟩, fun j hj => ⟨?_, ?_, ?_, ?_, ?_, Iff.rfl⟩,
      Finset.subset_insert _ _⟩
    · have hanswer := h.answer
      rw [h.stride] at htest hc
      rw [doSearchLazyLoop_of_child htest hc _ hlevel] at hanswer
      simp only [Function.update_self, h.stride]
      exact hanswer
    · simp only [Function.update_self]
    · intro _
      simp only [Function.update_self]
      exact ⟨by omega, hdown ▸ hcs, by omega⟩
    · exact fun hmem => absurd hmem hend
    all_goals simp only [Function.update_of_ne hj]
  · rw [if_neg htest]
    have hset : members (st.endcnt ||| 1#64 <<< i) = insert i (members st.endcnt) :=
      members_setBitmap (lt_trans hi (by decide))
    refine ⟨_, rfl, ⟨h.answer, h.stride, fun hend => ?_, fun _ => htest⟩,
      fun j hj => ⟨rfl, rfl, rfl, rfl, rfl, ?_⟩, hset.subset⟩
    · exact absurd (hset ▸ Finset.mem_insert_self _ _) hend
    · simp only [hset, Finset.mem_insert, hj, false_or]

/-- The arrays after `k` rounds. -/
structure Lanes (D cnt k : ℕ) (nhi : ℕ → Nhi) (st : BatchLanes) : Prop where
  lane : ∀ i < cnt, Lane D k (nhi i) st i
  endcnt : members st.endcnt ⊆ Finset.range cnt

/-- **One round** of stage 1. -/
theorem batchRound_spec {cnt : ℕ} {nhi : ℕ → Nhi} (hcnt : cnt ≤ BATCH) (hD : D < LEVEL IpV4)
    (h : Lanes D cnt k nhi st) :
    ∃ st', (List.range cnt).foldlM batchDescend st = some st' ∧ Lanes D cnt (k + 1) nhi st' := by
  have hloop := Run.foldlM_range (f := batchDescend) (n := cnt) (s := st)
    (fun j st => (∀ i < cnt, Lane D (if i < j then k + 1 else k) (nhi i) st i) ∧
      members st.endcnt ⊆ Finset.range cnt)
    ⟨fun i hi => by rw [if_neg (Nat.not_lt_zero i)]; exact h.lane i hi, h.endcnt⟩ ?_
  · obtain ⟨st', hst', hlanes, hend⟩ := hloop
    refine ⟨st', hst', fun i hi => ?_, hend⟩
    have hlane := hlanes i hi
    rwa [if_pos hi] at hlane
  · intro j s hj hs
    obtain ⟨hlanes, hend⟩ := hs
    have hlane := hlanes j hj
    rw [if_neg (lt_irrefl j)] at hlane
    obtain ⟨s', hs', hdown, hsame, hsub⟩ := batchDescend_spec (by omega) hD hlane
    refine ⟨s', hs', fun i hi => ?_, hsub.trans ?_⟩
    · by_cases hij : i = j
      · rw [hij, if_pos (Nat.lt_succ_self j)]
        exact hdown
      · have hlane' := (hlanes i hi).of_same (hsame i hij)
        have hiff : i < j + 1 ↔ i < j := by omega
        simpa only [hiff] using hlane'
    · exact Finset.insert_subset (Finset.mem_range.mpr hj) hend

/-- A lane that is done holds its answer. -/
theorem Lane.batchAnswer (h : Lane D k nhi st i) (hend : i ∈ members st.endcnt) :
    batchAnswer st i = some nhi := by
  have hanswer := h.answer
  have htest := h.done hend
  rw [h.stride] at htest
  rw [doSearchLazyLoop_of_not htest] at hanswer
  rw [TreeBitmap.batchAnswer, h.stride]
  exact hanswer

end Lanes

/-- What a lane has to answer. -/
def LaneAnswers (n : ℕ → MbNode) (ip : ℕ → IpV4) (cnt : ℕ) (nhi : ℕ → Nhi) : Prop :=
  ∀ i < cnt, bitmapDoSearch (n i) (ip i) = some (nhi i) ∧
    ∀ mark, bitmapDoSearchLazy mark (n i) (ip i) = some (nhi i)

theorem exists_answers {cnt : ℕ} {n : ℕ → MbNode} (hn : ∀ i < cnt, (n i).Shaped (LENGTH / STRIDE))
    (ip : ℕ → IpV4) : ∃ nhi, LaneAnswers n ip cnt nhi := by
  have hanswer : ∀ i, ∃ nhi, i < cnt → bitmapDoSearch (n i) (ip i) = some nhi ∧
      ∀ mark, bitmapDoSearchLazy mark (n i) (ip i) = some nhi := by
    intro i
    by_cases hi : i < cnt
    · obtain ⟨nhi, hnhi⟩ := exists_search_eq (α := IpV4) (hn i hi) (ip i)
      exact ⟨nhi, fun _ => hnhi⟩
    · exact ⟨0, fun h => absurd h hi⟩
  choose nhi hnhi using hanswer
  exact ⟨nhi, fun i hi => hnhi i hi⟩

theorem lanes_zero {cnt : ℕ} {n : ℕ → MbNode} {ip : ℕ → IpV4} {nhi : ℕ → Nhi}
    (hn : ∀ i < cnt, (n i).Shaped (LENGTH / STRIDE)) (hnhi : LaneAnswers n ip cnt nhi)
    (lazyMark : ℕ → LazyMark) :
    Lanes (LENGTH / STRIDE) cnt 0 nhi
      ⟨n, ip, fun i => strideOf (ip i), fun _ => 0, lazyMark, 0#64⟩ := by
  refine ⟨fun i hi => ⟨(hnhi i hi).2 _, rfl, fun _ => ⟨Nat.zero_le _, hn i hi, le_refl _⟩, ?_⟩, ?_⟩
  · intro hmem
    rw [members_zero] at hmem
    exact absurd hmem (Finset.notMem_empty i)
  · rw [members_zero]
    exact Finset.empty_subset _

/-- The end mask is full when every lane is done. -/
theorem Lanes.endcnt_iff {D cnt k : ℕ} {nhi : ℕ → Nhi} {st : BatchLanes} (hcnt : cnt ≤ BATCH)
    (h : Lanes D cnt k nhi st) :
    (st.endcnt != (1#64 <<< cnt) - 1) = false ↔ ∀ i < cnt, i ∈ members st.endcnt := by
  rw [bne_eq_false_iff_eq, ← members_injective.eq_iff, members_endMask cnt hcnt]
  constructor
  · intro heq i hi
    rw [heq]
    exact Finset.mem_range.mpr hi
  · intro hall
    exact h.endcnt.antisymm fun i hi => hall i (Finset.mem_range.mp hi)

/-- A lane goes down at most `D` times. -/
theorem Lanes.endcnt_eq {D cnt : ℕ} {nhi : ℕ → Nhi} {st : BatchLanes} (hcnt : cnt ≤ BATCH)
    (h : Lanes D cnt (D + 1) nhi st) : (st.endcnt != (1#64 <<< cnt) - 1) = false := by
  refine (h.endcnt_iff hcnt).mpr fun i hi => ?_
  by_contra hmem
  have := ((h.lane i hi).going hmem).1
  omega

/-- Stage 2. -/
theorem batchAnswers_spec {D cnt k : ℕ} {nhi : ℕ → Nhi} {st : BatchLanes}
    (h : Lanes D cnt k nhi st) (hall : ∀ i < cnt, i ∈ members st.endcnt) (ret : ℕ → Nhi) :
    ∃ ret', (List.range cnt).foldlM (fun ret i => do
        let nhi ← batchAnswer st i
        some (Function.update ret i nhi)) ret = some ret' ∧ ∀ i < cnt, ret' i = nhi i := by
  refine Run.foldlM_range (fun j (ret : ℕ → Nhi) => ∀ i < j, ret i = nhi i)
    (fun i hi => absurd hi (Nat.not_lt_zero i)) fun j r hj hr => ?_
  have hlane := (h.lane j hj).batchAnswer (hall j hj)
  refine ⟨Function.update r j (nhi j), ?_, fun i hi => ?_⟩
  · rw [hlane]
    rfl
  · by_cases hij : i = j
    · rw [hij, Function.update_self]
    · rw [Function.update_of_ne hij]
      exact hr i (by omega)

/-- **`bitmap_do_search_lazy_batch`** comes to an end and answers every lane. -/
theorem searchLazyBatch_spec {cnt : ℕ} (hcnt : cnt ≤ BATCH) {n : ℕ → MbNode}
    (hn : ∀ i < cnt, (n i).Shaped (LENGTH / STRIDE)) (lazyMark : ℕ → LazyMark) (ip : ℕ → IpV4)
    (ret : ℕ → Nhi) :
    ∃ ret', (∀ fuel, LEVEL IpV4 < fuel →
        bitmapDoSearchLazyBatch fuel lazyMark n ip ret cnt = some ret') ∧
      ∀ i < cnt, bitmapDoSearch (n i) (ip i) = some (ret' i) := by
  obtain ⟨nhi, hnhi⟩ := exists_answers hn ip
  have hfuel : LENGTH / STRIDE + 1 - 0 < LENGTH / STRIDE + 2 := by decide
  obtain ⟨k, st, hloop, hlanes, hcond⟩ := Run.whileLoop_of_rounds
    (fun st : BatchLanes => st.endcnt != (1#64 <<< cnt) - 1)
    (fun st => (List.range cnt).foldlM batchDescend st)
    (fun k => Lanes (LENGTH / STRIDE) cnt k nhi)
    (fun k st _ hst _ => batchRound_spec hcnt (by decide) hst)
    (fun st hst => hst.endcnt_eq hcnt) (Nat.zero_le _) hfuel (lanes_zero hn hnhi lazyMark)
  obtain ⟨ret', hret', hvals⟩ := batchAnswers_spec hlanes ((hlanes.endcnt_iff hcnt).mp hcond) ret
  refine ⟨ret', fun fuel hfuel => ?_, fun i hi => ?_⟩
  · have hle : LENGTH / STRIDE + 2 ≤ fuel := hfuel
    have hloop' := Run.whileLoop_mono hle hloop
    rw [bitmapDoSearchLazyBatch, hloop', Option.bind_eq_bind, Option.bind_some]
    exact hret'
  · rw [hvals i hi]
    exact (hnhi i hi).1

/-! ## Splitting a batch -/

section Split

variable {node : ℕ → InitNode} {ip : ℕ → IpV4} {ret : ℕ → Nhi} {locals : BatchLocals} {cnt : ℕ}

/-- The lane for the `i`-th address, if its entry has a trie. -/
def laneOf (node : ℕ → InitNode) (i : ℕ) : ℕ := Nat.count (fun k => (node k).hasChild) i

theorem laneOf_succ_of_hasChild {i : ℕ} (h : (node i).hasChild) :
    laneOf node (i + 1) = laneOf node i + 1 := by
  rw [laneOf, Nat.count_succ, if_pos h, laneOf]

theorem laneOf_succ_of_not {i : ℕ} (h : ¬ (node i).hasChild) :
    laneOf node (i + 1) = laneOf node i := by
  rw [laneOf, Nat.count_succ, if_neg h, Nat.add_zero, laneOf]

theorem laneOf_lt {i j : ℕ} (h : (node i).hasChild) (hij : i < j) : laneOf node i < laneOf node j :=
  Nat.count_strict_mono h hij

/-- What the second loop of `tbm_search_batch` has done after `j` addresses. -/
structure Split (node : ℕ → InitNode) (ip : ℕ → IpV4) (j : ℕ) (ret : ℕ → Nhi)
    (locals : BatchLocals) (mbCnt : ℕ) : Prop where
  count : mbCnt = laneOf node j
  pointer : ∀ i < j, ¬ (node i).hasChild → ret i = (node i).ptr
  trie : ∀ i < j, (node i).hasChild → locals.mbN (laneOf node i) = (node i).node ∧
    locals.mbIp (laneOf node i) = shl (ip i) INITIAL_BITS
  lane : ∀ l < mbCnt, ∃ i < j, (node i).hasChild ∧ laneOf node i = l

theorem Split.trie_step {j mbCnt : ℕ} (h : Split node ip j ret locals mbCnt)
    (hchild : (node j).hasChild) :
    Split node ip (j + 1) ret { locals with
      mbIp := Function.update locals.mbIp mbCnt (shl (ip j) INITIAL_BITS)
      mbN := Function.update locals.mbN mbCnt (node j).node } (mbCnt + 1) := by
  refine ⟨?_, fun i hi hnot => ?_, fun i hi hhas => ?_, fun l hl => ?_⟩
  · rw [laneOf_succ_of_hasChild hchild, h.count]
  · have hij : i ≠ j := fun heq => hnot (heq ▸ hchild)
    exact h.pointer i (by omega) hnot
  · by_cases hij : i = j
    · rw [hij, ← h.count]
      exact ⟨Function.update_self _ _ _, Function.update_self _ _ _⟩
    · have hlt : laneOf node i < mbCnt := h.count ▸ laneOf_lt hhas (by omega)
      simp only [Function.update_of_ne hlt.ne]
      exact h.trie i (by omega) hhas
  · by_cases hlast : l = mbCnt
    · exact ⟨j, Nat.lt_succ_self j, hchild, by rw [hlast, h.count]⟩
    · obtain ⟨i, hi, hhas, hlane⟩ := h.lane l (by omega)
      exact ⟨i, by omega, hhas, hlane⟩

theorem Split.pointer_step {j mbCnt : ℕ} (h : Split node ip j ret locals mbCnt)
    (hchild : ¬ (node j).hasChild) :
    Split node ip (j + 1) (Function.update ret j (node j).ptr) locals mbCnt := by
  refine ⟨?_, fun i hi hnot => ?_, fun i hi hhas => ?_, fun l hl => ?_⟩
  · rw [laneOf_succ_of_not hchild, h.count]
  · by_cases hij : i = j
    · rw [hij, Function.update_self]
    · rw [Function.update_of_ne hij]
      exact h.pointer i (by omega) hnot
  · have hij : i ≠ j := fun heq => hchild (heq ▸ hhas)
    exact h.trie i (by omega) hhas
  · obtain ⟨i, hi, hhas, hlane⟩ := h.lane l hl
    exact ⟨i, by omega, hhas, hlane⟩

theorem batchSplit_spec (node : ℕ → InitNode) (ip : ℕ → IpV4) (ret : ℕ → Nhi)
    (locals : BatchLocals) (cnt : ℕ) :
    ∃ ret' locals' mbCnt, (List.range cnt).foldlM (batchSplit node ip) (ret, locals, 0) =
        some (ret', locals', mbCnt) ∧ Split node ip cnt ret' locals' mbCnt := by
  have hstart : Split node ip 0 ret locals 0 := by
    refine ⟨?_, fun i hi => ?_, fun i hi => ?_, fun l hl => ?_⟩
    · rw [laneOf, Nat.count_zero]
    all_goals omega
  have hloop := Run.foldlM_range (f := batchSplit node ip) (n := cnt)
    (fun j st => Split node ip j st.1 st.2.1 st.2.2) (s := (ret, locals, 0)) hstart ?_
  · obtain ⟨⟨ret', locals', mbCnt⟩, hloop, hsplit⟩ := hloop
    exact ⟨ret', locals', mbCnt, hloop, hsplit⟩
  · intro j st hj h
    obtain ⟨ret, locals, mbCnt⟩ := st
    rw [batchSplit]
    by_cases hchild : (node j).hasChild
    · rw [if_pos hchild]
      exact ⟨_, rfl, h.trie_step hchild⟩
    · rw [if_neg hchild]
      exact ⟨_, rfl, h.pointer_step hchild⟩

theorem batchScatter_spec (node : ℕ → InitNode) (mbRet ret : ℕ → Nhi) (cnt : ℕ) :
    ∃ ret' j, (List.range cnt).foldlM (batchScatter node mbRet) (ret, 0) = some (ret', j) ∧
      ∀ i < cnt, ret' i = if (node i).hasChild then mbRet (laneOf node i) else ret i := by
  have hloop := Run.foldlM_range (f := batchScatter node mbRet) (n := cnt)
    (fun k st => st.2 = laneOf node k ∧
      (∀ i < k, st.1 i = if (node i).hasChild then mbRet (laneOf node i) else ret i) ∧
      ∀ i, k ≤ i → st.1 i = ret i) (s := (ret, 0)) ?_ ?_
  · obtain ⟨⟨ret', j⟩, hloop, -, hdone, -⟩ := hloop
    exact ⟨ret', j, hloop, hdone⟩
  · refine ⟨?_, fun i hi => by omega, fun _ _ => rfl⟩
    rw [laneOf, Nat.count_zero]
  · intro k st hk h
    obtain ⟨r, j⟩ := st
    obtain ⟨hj, hdone, hrest⟩ := h
    simp only at hj hdone hrest
    rw [batchScatter]
    by_cases hchild : (node k).hasChild
    · rw [if_pos hchild]
      refine ⟨_, rfl, ?_, fun i hi => ?_, fun i hi => ?_⟩
      · rw [laneOf_succ_of_hasChild hchild, hj]
      · by_cases hik : i = k
        · simp only [hik, Function.update_self, hchild, if_true, hj]
        · simp only [Function.update_of_ne hik]
          exact hdone i (by omega)
      · have hik : i ≠ k := by omega
        simp only [Function.update_of_ne hik]
        exact hrest i (by omega)
    · rw [if_neg hchild]
      refine ⟨_, rfl, ?_, fun i hi => ?_, fun i hi => hrest i (by omega)⟩
      · rw [laneOf_succ_of_not hchild, hj]
      · by_cases hik : i = k
        · rw [hik, if_neg hchild]
          exact hrest k (le_refl k)
        · exact hdone i (by omega)

end Split

/-- An entry with a trie has one that fits. -/
theorem Pushes.shaped {α : Type} [IpAddr α] [DecidableEq α] {trie : TbmTrie} {T : Stored α}
    (h : Pushes trie T) {x : Fin (2 ^ INITIAL_BITS)} (hx : (trie.init x).hasChild) :
    (trie.init x).node.Shaped ((IpAddr.LENGTH α - INITIAL_BITS) / 6) :=
  (h.wf_of_hasChild hx).shaped

/-- The entries of the addresses. -/
theorem batchNodes_spec (trie : TbmTrie) (ip : ℕ → IpV4) (node : ℕ → InitNode) {cnt : ℕ}
    (hcnt : cnt ≤ BATCH) :
    ∃ node', (List.range cnt).foldlM (fun node i => do
        guard (i < BATCH)
        let x ← initIndex (shr (ip i) (LENGTH - INITIAL_BITS)).toNat
        some (Function.update node i (trie.init x))) node = some node' ∧
      ∀ i < cnt, ∃ x, initIndex (shr (ip i) (LENGTH - INITIAL_BITS)).toNat = some x ∧
        node' i = trie.init x := by
  refine Run.foldlM_range (fun j (node : ℕ → InitNode) => ∀ i < j, ∃ x,
      initIndex (shr (ip i) (LENGTH - INITIAL_BITS)).toNat = some x ∧ node i = trie.init x)
    (fun i hi => absurd hi (Nat.not_lt_zero i)) fun j node hj hnode => ?_
  obtain ⟨x, hx, -⟩ := exists_initIndex_bits (ip j)
  have hx : initIndex (shr (ip j) (LENGTH - INITIAL_BITS)).toNat = some x := hx
  have hguard : guard (j < BATCH) = some () := if_pos (by omega)
  refine ⟨Function.update node j (trie.init x), ?_, fun i hi => ?_⟩
  · rw [hguard, Option.bind_eq_bind, Option.bind_some, hx]
    rfl
  · by_cases hij : i = j
    · rw [hij]
      exact ⟨x, hx, Function.update_self _ _ _⟩
    · obtain ⟨y, hy, hnode⟩ := hnode i (by omega)
      exact ⟨y, hy, by rw [Function.update_of_ne hij, hnode]⟩

/-- **`tbm_search_batch`** comes to an end and answers as `tbm_search`. -/
theorem tbmSearchBatch_spec {trie : TbmTrie} {T : Stored IpV4} (h : Pushes trie T) {cnt : ℕ}
    (hcnt : cnt ≤ BATCH) (lazyMark : ℕ → LazyMark) (locals : BatchLocals) (ip : ℕ → IpV4)
    (ret : ℕ → Nhi) :
    ∃ ret', (∀ fuel, LEVEL IpV4 < fuel →
        tbmSearchBatch fuel lazyMark locals trie ip ret cnt = some ret') ∧
      ∀ i < cnt, ∀ mark, tbmSearch mark trie (ip i) = some (ret' i) := by
  obtain ⟨node, hnodes, hentry⟩ := batchNodes_spec trie ip locals.node hcnt
  obtain ⟨ret₁, locals₁, mbCnt, hsplit, hS⟩ := batchSplit_spec node ip ret locals cnt
  have hmb : mbCnt ≤ BATCH := by
    rw [hS.count]
    exact (Nat.count_le _).trans hcnt
  have hshaped : ∀ l < mbCnt, (locals₁.mbN l).Shaped (LENGTH / STRIDE) := by
    intro l hl
    obtain ⟨i, hi, hchild, rfl⟩ := hS.lane l hl
    obtain ⟨x, -, hx⟩ := hentry i hi
    rw [(hS.trie i hi hchild).1, hx]
    exact (h.shaped (hx ▸ hchild)).mono (by decide)
  obtain ⟨mbRet, hbatch, hvals⟩ :=
    searchLazyBatch_spec hmb hshaped lazyMark locals₁.mbIp locals₁.mbRet
  obtain ⟨ret', j, hscatter, hret⟩ := batchScatter_spec node mbRet ret₁ cnt
  refine ⟨ret', fun fuel hfuel => ?_, fun i hi mark => ?_⟩
  · rw [tbmSearchBatch, hnodes]
    simp only [Option.bind_eq_bind, Option.bind_some, hsplit, hbatch fuel hfuel, hscatter]
  · obtain ⟨x, hindex, hx⟩ := hentry i hi
    rw [tbmSearch, hindex, Option.bind_eq_bind, Option.bind_some, ← hx, hret i hi]
    by_cases hchild : (node i).hasChild
    · obtain ⟨hn, hip⟩ := hS.trie i hi hchild
      have hlt : laneOf node i < mbCnt := hS.count ▸ laneOf_lt hchild hi
      obtain ⟨nhi, heager, hlazy⟩ := exists_search_eq (α := IpV4) (hshaped _ hlt)
        (locals₁.mbIp (laneOf node i))
      have hnhi : mbRet (laneOf node i) = nhi :=
        Option.some.inj ((hvals _ hlt).symm.trans heager)
      rw [if_pos hchild, if_pos hchild, hnhi, ← hn, ← hip]
      exact hlazy mark
    · rw [if_neg hchild, if_neg hchild, hS.pointer i hi hchild]

/-- **Batched lookup is single lookup**: `tbm_search_batch` after any run of updates, and
`bitmap_do_search_lazy_batch` on any tries of fitting shape. -/
theorem searchBatch_eq_search {ops : List (Op IpV4)} (hops : (tbmMachine IpV4).Legal ∅ ops)
    {cnt : ℕ} (hcnt : cnt ≤ BATCH) {n : ℕ → MbNode}
    (hn : ∀ i < cnt, (n i).Shaped (LENGTH / STRIDE)) :
    (∃ trie, ops.foldlM tbmStep tbmInitTrie = some trie ∧
      ∀ lazyMark locals ip ret, ∃ ret', (∀ fuel, LEVEL IpV4 < fuel →
          tbmSearchBatch fuel lazyMark locals trie ip ret cnt = some ret') ∧
        ∀ i < cnt, ∀ mark, tbmSearch mark trie (ip i) = some (ret' i)) ∧
    ∀ lazyMark ip ret, ∃ ret', (∀ fuel, LEVEL IpV4 < fuel →
        bitmapDoSearchLazyBatch fuel lazyMark n ip ret cnt = some ret') ∧
      ∀ i < cnt, bitmapDoSearch (n i) (ip i) = some (ret' i) := by
  obtain ⟨trie, hrun, hpush⟩ := exists_leafStep_run hops
  exact ⟨⟨trie, tbmStep_eq ▸ hrun, tbmSearchBatch_spec hpush hcnt⟩, searchLazyBatch_spec hcnt hn⟩

theorem searchBatch_eq_search_sparseTrie :
    (∃ trie, tenOps.foldlM tbmStep tbmInitTrie = some trie ∧
      ∀ lazyMark locals ip ret, ∃ ret', (∀ fuel, LEVEL IpV4 < fuel →
          tbmSearchBatch fuel lazyMark locals trie ip ret 3 = some ret') ∧
        ∀ i < 3, ∀ mark, tbmSearch mark trie (ip i) = some (ret' i)) ∧
    ∀ lazyMark ip ret, ∃ ret', (∀ fuel, LEVEL IpV4 < fuel →
        bitmapDoSearchLazyBatch fuel lazyMark (fun _ => sparseTrie) ip ret 3 = some ret') ∧
      ∀ i < 3, bitmapDoSearch sparseTrie (ip i) = some (ret' i) :=
  searchBatch_eq_search engine_legal_tenOps (by decide) fun _ _ => shaped_sparseTrie (by decide)

end TreeBitmap
