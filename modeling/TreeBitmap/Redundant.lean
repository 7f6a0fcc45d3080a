import TreeBitmap.Compressed
import TreeBitmap.Lib.Repeats
import TreeBitmap.Leftovers
import TreeBitmap.Traversal
import Mathlib.Data.Set.Finite.List

/-!
# Redundant next hops

`bitmap_redund_rule` goes through a trie and counts how often a prefix has the next hop of the
prefix before it in its node: these are the next hops that the `COMPRESS_NHI` build could do
without.  `tbm_redund_rule_count` does so for the tries of the init table, and prints the sum.  The
address that both functions compute on the way is not used for anything.

## Main definitions

* `bitmapRedundRule`, `tbmRedundRuleCount` — the two functions.
* `RepeatsIn T s`, `redundancy T` — what they count, said of the table of a trie.
* `bitmapRedundRule_spec` — **the count is the redundancy of the table**.
* `runs_redundancy` — what they count after a run.
-/

namespace TreeBitmap

open BitString LongestMatch Ranked
open CompressNhi (nodeBits leafIdx nodeBits_of_lt leafIdx_of_lt nodeBits_append leafIdx_append
  upperHalf lowerHalf)

/-! ## `bitmap_v4.c` and `tbmv4.c` -/

/-- The body of the first loop of `bitmap_redund_rule`, with `prev_nhi` and the count. -/
def redundRule (node : MbNode) (prevNhi : Nhi) (redund : BitVec 32) (cidr bit : ℕ) :
    Option (Nhi × BitVec 32) :=
  let pos := countInlBitmap bit cidr
  if testBitmap node.internal pos then do
    let nhi ← (pointerToNhi node pos).deref
    if prevNhi = 0 then some (nhi, redund)
    else if nhi = prevNhi then some (prevNhi, redund + 1)
    else some (nhi, redund)
  else some (prevNhi, redund)

/-- `bitmap_redund_rule`. -/
def bitmapRedundRule (node : MbNode) (ip : IpV4) (leftBits curCidr : ℕ) (redund : BitVec 32) :
    Option (BitVec 32) := do
  let st ← (List.range STRIDE).foldlM (fun (st : Nhi × BitVec 32) cidr =>
    (List.range (2 ^ cidr)).foldlM (fun (st : Nhi × BitVec 32) bit =>
      redundRule node st.1 st.2 cidr bit) st) (0, redund)
  (List.range (2 ^ STRIDE)).foldlM (fun redund stride =>
    let pos := countEnlBitmap stride
    if testBitmap node.external pos then
      match _h : node.child pos with
      | some next => bitmapRedundRule next (orShiftedV4 ip stride (sub32 leftBits STRIDE))
          (sub32 leftBits STRIDE) ((curCidr + STRIDE) % 2 ^ 32) redund
      | none => none
    else some redund) st.2
termination_by sizeOf node
decreasing_by exact MbNode.sizeOf_lt_of_mem (MbNode.child_mem _h)

/-- One round of `tbm_redund_rule_count`. -/
def redundEntry (trie : TbmTrie) (redund : BitVec 32) (i : ℕ) : Option (BitVec 32) := do
  let x ← initIndex i
  if !(trie.init x).hasChild then some redund
  else
    bitmapRedundRule (trie.init x).node
      (shl (BitVec.ofNat 32 i) (IpAddr.LENGTH IpV4 - INITIAL_BITS))
      (IpAddr.LENGTH IpV4 - INITIAL_BITS) INITIAL_BITS redund

/-- `tbm_redund_rule_count`: the number that it prints. -/
def tbmRedundRuleCount (trie : TbmTrie) : Option ℤ := do
  let redund ← (List.range (2 ^ INITIAL_BITS)).foldlM (redundEntry trie) 0#32
  some redund.toInt

/-! ## What is counted -/

section Tables

variable {T : Table Bool Nhi} {s t u : List Bool}

/-- `t` comes before `s` in one node: it is shorter, or as long and smaller. -/
def Precedes (t s : List Bool) : Prop := nodeBits t = nodeBits s ∧ leafIdx t < leafIdx s

instance (t s : List Bool) : Decidable (Precedes t s) := inferInstanceAs (Decidable (_ ∧ _))

/-- The string has the next hop of the one before it in its node, and that is not `NULL`. -/
def RepeatsIn (T : Table Bool Nhi) (s : List Bool) : Prop :=
  ∃ t v, T t = some v ∧ T s = some v ∧ v ≠ 0 ∧ Precedes t s ∧
    ∀ u, T u ≠ none → Precedes t u → ¬ Precedes u s

/-- The number of strings that repeat. -/
noncomputable def redundancy (T : Table Bool Nhi) : ℕ := {s | RepeatsIn T s}.ncard

/-- Of the strings that satisfy `p`, `k` repeat. -/
def Counted (T : Table Bool Nhi) (p : List Bool → Prop) (k : ℕ) : Prop :=
  ∃ L : Finset (List Bool), (∀ s, s ∈ L ↔ RepeatsIn T s ∧ p s) ∧ L.card = k

theorem Counted.congr {p q : List Bool → Prop} {k : ℕ} (h : Counted T p k)
    (hpq : ∀ s, T s ≠ none → (p s ↔ q s)) : Counted T q k := by
  obtain ⟨L, hmem, hcard⟩ := h
  refine ⟨L, fun s => ?_, hcard⟩
  rw [hmem]
  refine and_congr_right fun hrep => hpq s ?_
  obtain ⟨t, v, -, hv, -⟩ := hrep
  simp [hv]

/-- Two parts without a common string make one. -/
theorem Counted.add {p q : List Bool → Prop} {k l : ℕ} (h : Counted T p k) (h' : Counted T q l)
    (hpq : ∀ s, p s → ¬ q s) : Counted T (fun s => p s ∨ q s) (k + l) := by
  obtain ⟨L, hmem, rfl⟩ := h
  obtain ⟨L', hmem', rfl⟩ := h'
  refine ⟨L ∪ L', fun s => ?_, Finset.card_union_of_disjoint ?_⟩
  · rw [Finset.mem_union, hmem, hmem', ← and_or_left]
  · rw [Finset.disjoint_left]
    intro s hs hs'
    exact hpq s ((hmem s).mp hs).2 ((hmem' s).mp hs').2

theorem exists_counted {p : List Bool → Prop} (h : {s | T s ≠ none}.Finite) :
    ∃ k, Counted T p k := by
  have hfin : {s | RepeatsIn T s ∧ p s}.Finite := by
    refine h.subset fun s hs => ?_
    obtain ⟨⟨t, v, -, hv, -⟩, -⟩ := hs
    simp [hv]
  exact ⟨_, hfin.toFinset, fun s => by simp, rfl⟩

theorem Counted.redundancy_eq {k : ℕ} (h : Counted T (fun _ => True) k) : redundancy T = k := by
  obtain ⟨L, hmem, rfl⟩ := h
  have hL : (L : Set (List Bool)) = {s | RepeatsIn T s} := by
    ext s
    simp [hmem]
  rw [redundancy, ← hL, Set.ncard_coe_finset]

theorem nodeBits_eq_nil_iff : nodeBits s = [] ↔ s.length < 6 := by
  constructor
  · intro h
    by_contra hlen
    rw [nodeBits, STRIDE_eq, List.take_eq_nil_iff] at h
    rcases h with h | rfl
    · omega
    · simp at hlen
  · exact nodeBits_of_lt

/-- The strings in the node of a string that goes through a child go through it too. -/
theorem exists_append_of_nodeBits (ht : t.length = 6) (h : nodeBits u = nodeBits (t ++ s)) :
    ∃ u', u = t ++ u' ∧ nodeBits u' = nodeBits s := by
  rw [nodeBits_append ht] at h
  have hpre : t <+: u := by
    have hnode : t <+: nodeBits u := ⟨_, h.symm⟩
    exact hnode.trans (List.take_prefix _ u)
  obtain ⟨u', rfl⟩ := hpre
  rw [nodeBits_append ht] at h
  exact ⟨u', rfl, List.append_cancel_left h⟩

theorem precedes_append_iff (ht : t.length = 6) : Precedes (t ++ u) (t ++ s) ↔ Precedes u s := by
  rw [Precedes, Precedes, nodeBits_append ht, nodeBits_append ht, leafIdx_append ht,
    leafIdx_append ht, List.append_cancel_left_eq]

/-- The strings below a stride repeat there as they do in the whole. -/
theorem repeatsIn_below_iff (ht : t.length = 6) :
    RepeatsIn (below T t) s ↔ RepeatsIn T (t ++ s) := by
  constructor
  · intro h
    obtain ⟨u, v, hu, hs, hv, hpre, hleast⟩ := h
    refine ⟨t ++ u, v, hu, hs, hv, (precedes_append_iff ht).mpr hpre, fun x hx hux hxs => ?_⟩
    obtain ⟨x, rfl, -⟩ := exists_append_of_nodeBits ht hxs.1
    exact hleast x hx ((precedes_append_iff ht).mp hux) ((precedes_append_iff ht).mp hxs)
  · intro h
    obtain ⟨u, v, hu, hs, hv, hpre, hleast⟩ := h
    obtain ⟨u, rfl, -⟩ := exists_append_of_nodeBits ht hpre.1
    exact ⟨u, v, hu, hs, hv, (precedes_append_iff ht).mp hpre, fun x hx hux hxs =>
      hleast (t ++ x) hx ((precedes_append_iff ht).mpr hux) ((precedes_append_iff ht).mpr hxs)⟩

theorem not_repeatsIn_none : ¬ RepeatsIn (fun _ => none) s := by
  intro h
  obtain ⟨t, v, ht, -⟩ := h
  cases ht

end Tables

/-! ## One trie -/

section Trie

variable {n : MbNode} {w c : ℕ} {s t : List Bool} {redund : BitVec 32}

/-- The strings of a child are strings of its parent. -/
theorem repeatsIn_append_iff (ht : t.length = 6) :
    RepeatsIn n.get (t ++ s) ↔ ∃ k, n.kid (value t) = some k ∧ RepeatsIn k.get s := by
  rw [← repeatsIn_below_iff ht]
  rcases hk : n.kid (value t) with _ | k
  · rw [below_get_of_none ht hk]
    exact ⟨fun h => absurd h not_repeatsIn_none, fun ⟨_, h, _⟩ => absurd h (by simp)⟩
  · rw [below_get ht hk]
    exact ⟨fun h => ⟨k, rfl, h⟩, fun ⟨_, h, hrep⟩ => Option.some.inj h ▸ hrep⟩

theorem Counted.of_kid {k : MbNode} {l : ℕ} (ht : t.length = 6) (hk : n.kid (value t) = some k)
    (h : Counted k.get (fun _ => True) l) : Counted n.get (t <+: ·) l := by
  obtain ⟨L, hmem, rfl⟩ := h
  refine ⟨L.image (t ++ ·), fun s => ?_,
    Finset.card_image_of_injective _ (List.append_right_injective t)⟩
  rw [Finset.mem_image]
  constructor
  · intro h
    obtain ⟨u, hu, rfl⟩ := h
    exact ⟨(repeatsIn_append_iff ht).mpr ⟨k, hk, ((hmem u).mp hu).1⟩, List.prefix_append t u⟩
  · intro h
    obtain ⟨hrep, u, rfl⟩ := h
    obtain ⟨k', hk', hrep⟩ := (repeatsIn_append_iff ht).mp hrep
    obtain rfl : k = k' := Option.some.inj (hk.symm.trans hk')
    exact ⟨u, (hmem u).mpr ⟨hrep, trivial⟩, rfl⟩

theorem exists_inlPos_of_mem (hn : n.Wf w) {pos : ℕ} (hpos : pos ∈ members n.internal) :
    ∃ t : List Bool, t.length < 6 ∧ inlPos t = pos := by
  obtain ⟨t, ht, hpos⟩ := exists_inlPos_eq (hn.internal hpos)
  exact ⟨t, by omega, hpos⟩

theorem precedes_iff_of_lt (ht : t.length < 6) (hs : s.length < 6) :
    Precedes t s ↔ inlPos t < inlPos s := by
  rw [Precedes, nodeBits_of_lt ht, nodeBits_of_lt hs, leafIdx_of_lt ht, leafIdx_of_lt hs]
  simp

theorem length_lt_of_precedes (hs : s.length < 6) (h : Precedes t s) : t.length < 6 := by
  rw [← nodeBits_eq_nil_iff, h.1, nodeBits_of_lt hs]

/-- A short string repeats if its position does. -/
theorem repeatsIn_iff_of_lt (hn : n.Wf w) (hs : s.length < 6) :
    RepeatsIn n.get s ↔ inlPos s ∈ repeated 0 (members n.internal) n.rule := by
  have hmarks := marks_internal hn.layout.rules_length
  rw [mem_repeated_iff]
  constructor
  · intro h
    obtain ⟨t, v, ht, hv, hne, hpre, hleast⟩ := h
    have hlt := length_lt_of_precedes hs hpre
    refine ⟨inlPos t, v, ⟨(hmarks t hlt).mpr (by simp [ht]), (hmarks s hs).mpr (by simp [hv]),
      (precedes_iff_of_lt hlt hs).mp hpre, fun pos hpos htpos => ?_⟩, ?_, ?_, hne⟩
    · obtain ⟨u, hu, rfl⟩ := exists_inlPos_of_mem hn hpos
      by_contra hus
      exact hleast u ((hmarks u hu).mp hpos) ((precedes_iff_of_lt hlt hu).mpr htpos)
        ((precedes_iff_of_lt hu hs).mpr (not_le.mp hus))
    · rw [← MbNode.get_of_lt hlt, ht]
    · rw [← MbNode.get_of_lt hs, hv]
  · intro h
    obtain ⟨pos, v, hfollows, hpos, hv, hne⟩ := h
    obtain ⟨t, hlt, rfl⟩ := exists_inlPos_of_mem hn hfollows.left_mem
    refine ⟨t, v, ?_, ?_, hne, (precedes_iff_of_lt hlt hs).mpr hfollows.lt, fun u hu htu hus => ?_⟩
    · rw [MbNode.get_of_lt hlt, hpos]
    · rw [MbNode.get_of_lt hs, hv]
    · have hul := length_lt_of_precedes hs hus
      have hle := hfollows.least _ ((hmarks u hul).mpr hu) ((precedes_iff_of_lt hlt hul).mp htu)
      have hlt' := (precedes_iff_of_lt hul hs).mp hus
      omega

/-- The repeats of a node, as strings. -/
theorem counted_of_lt (hn : n.Wf w) :
    Counted n.get (·.length < 6) (repeated 0 (members n.internal) n.rule).card := by
  have hrange : ∀ pos ∈ repeated 0 (members n.internal) n.rule, pos ∈ Set.range inlPos := by
    intro pos hpos
    obtain ⟨t, -, ht⟩ := exists_inlPos_of_mem hn (repeated_subset _ _ _ hpos)
    exact ⟨t, ht⟩
  refine ⟨(repeated 0 (members n.internal) n.rule).preimage inlPos inlPos_injective.injOn,
    fun s => ?_, ?_⟩
  · rw [Finset.mem_preimage]
    constructor
    · intro hs
      obtain ⟨t, ht, hpos⟩ := exists_inlPos_of_mem hn (repeated_subset _ _ _ hs)
      obtain rfl := inlPos_injective hpos
      exact ⟨(repeatsIn_iff_of_lt hn ht).mpr hs, ht⟩
    · intro hs
      exact (repeatsIn_iff_of_lt hn hs.2).mp hs.1
  · classical
    rw [Finset.card_preimage, Finset.filter_true_of_mem hrange]

/-- The number of repeats below a node. -/
theorem counted_redundancy (hn : n.Wf w) :
    Counted n.get (fun _ => True) (redundancy n.get) := by
  have hfin : {s | n.get s ≠ none}.Finite := by
    refine (List.finite_length_le Bool w).subset fun s hs => ?_
    obtain ⟨v, hv⟩ := Option.ne_none_iff_exists'.mp hs
    exact hn.length_le hv
  obtain ⟨k, hk⟩ := exists_counted (p := fun _ => True) hfin
  exact hk.redundancy_eq ▸ hk

/-- The child at `i` adds its own repeats. -/
theorem Counted.kid (hn : n.Wf w) {i k : ℕ} (hi : i < 64) (h : Counted n.get (Before i) k) :
    Counted n.get (Before (i + 1))
      (k + (n.kid i).elim 0 fun c => redundancy c.get) := by
  obtain ⟨t, ht, rfl⟩ := exists_value_eq (v := i) (k := 6) hi
  have hiff := before_succ_iff (i := value t) ht rfl
  rcases hkid : n.kid (value t) with _ | c
  · refine h.congr fun s hs => ?_
    rw [hiff]
    constructor
    · exact .inl
    · intro h'
      rcases h' with h' | ⟨u, rfl⟩
      · exact h'
      · rw [MbNode.get_append ht, hkid] at hs
        exact absurd rfl hs
  · have hkids := (counted_redundancy (hn.kids hkid)).of_kid ht hkid
    refine (h.add hkids ?_).congr fun s _ => (hiff s).symm
    intro s hs hpre
    have hlen := hpre.length_le
    have htake := List.prefix_iff_eq_take.mp hpre
    rw [ht] at hlen htake
    rcases hs with hs | hs
    · omega
    · rw [← htake] at hs
      exact lt_irrefl _ hs

/-- The repeats of a node and those of its children below the position `i`. -/
noncomputable def redundancyBelow (n : MbNode) (i : ℕ) : ℕ :=
  (repeated 0 (members n.internal) n.rule).card +
    ((readBelow (members n.external) n.children i).map fun c => redundancy c.get).sum

theorem redundancyBelow_succ (n : MbNode) (hn : n.Layout) (i : ℕ) :
    redundancyBelow n (i + 1) =
      redundancyBelow n i + (n.kid i).elim 0 fun c => redundancy c.get := by
  by_cases hmem : i ∈ members n.external
  · obtain ⟨c, hc⟩ := exists_kid hn hmem
    rw [redundancyBelow, redundancyBelow, readBelow_succ_of_lookup hc, hc]
    simp [add_assoc]
  · have hnone : n.kid i = none := lookup_of_notMem hmem
    rw [redundancyBelow, redundancyBelow, readBelow_succ_of_notMem hmem, hnone]
    rfl

/-- **The redundancy of a trie**: that of the root, and that of the children. -/
theorem redundancy_eq (hn : n.Wf w) :
    redundancy n.get = (repeated 0 (members n.internal) n.rule).card +
      (n.children.map fun c => redundancy c.get).sum := by
  have hcounted : ∀ i ≤ 64, Counted n.get (Before i) (redundancyBelow n i) := by
    intro i
    induction i with
    | zero =>
        intro _
        have hzero : redundancyBelow n 0 = (repeated 0 (members n.internal) n.rule).card := by
          simp [redundancyBelow]
        rw [hzero]
        refine (counted_of_lt hn).congr fun s _ => ?_
        simp [Before]
    | succ i ih =>
        intro hi
        rw [redundancyBelow_succ n hn.layout]
        exact (ih (by omega)).kid hn hi
  have hall : readBelow (members n.external) n.children 64 = n.children :=
    readBelow_of_forall_lt hn.layout.children_length fun _ h => lt_of_mem_members h
  have h := (hcounted 64 (le_refl _)).congr (q := fun _ => True) fun s _ =>
    ⟨fun _ => trivial, fun _ => by
      by_cases hs : s.length < 6
      · exact .inl hs
      · refine .inr ?_
        have hlt := value_lt (s.take 6)
        rw [List.length_take, min_eq_left (by omega)] at hlt
        exact hlt⟩
  rw [h.redundancy_eq, redundancyBelow, hall]
  simp

/-! ## The two loops -/

/-- What the first loop knows after the positions below `k`. -/
def RuleSeen (n : MbNode) (redund : BitVec 32) (k : ℕ) (st : Nhi × BitVec 32) : Prop :=
  ∃ count, Scanned 0 (members n.internal) n.rule k st.1 count ∧
    st.2 = redund + BitVec.ofNat 32 count

theorem RuleSeen.step (hn : n.Wf w) {st : Nhi × BitVec 32} (h : RuleSeen n redund (inlPos t) st) :
    ∃ st', redundRule n st.1 st.2 t.length (value t) = some st' ∧
      RuleSeen n redund (inlPos t + 1) st' := by
  obtain ⟨prev, redund'⟩ := st
  obtain ⟨count, hscan, hredund⟩ := h
  simp only at hscan hredund
  subst hredund
  have hpos : countInlBitmap (value t) t.length = inlPos t := rfl
  simp only [redundRule, hpos]
  by_cases hmem : inlPos t ∈ members n.internal
  · obtain ⟨v, hv⟩ := exists_rule hn.layout hmem
    have hread := hscan.read hmem hv
    rw [if_pos (testBitmap_iff.mpr hmem), deref_pointerToNhi hmem, hv]
    simp only [Option.bind_eq_bind, Option.bind_some]
    by_cases hnull : prev = 0
    · rw [if_neg (by simp [hnull])] at hread
      rw [if_pos hnull]
      exact ⟨_, rfl, count, hread, rfl⟩
    · rw [if_neg hnull]
      by_cases heq : v = prev
      · rw [if_pos ⟨hnull, heq⟩] at hread
        rw [if_pos heq, ← heq]
        refine ⟨_, rfl, count + 1, hread, ?_⟩
        rw [BitVec.ofNat_add, BitVec.add_assoc]
        rfl
      · rw [if_neg (by simp [heq])] at hread
        rw [if_neg heq]
        exact ⟨_, rfl, count, hread, rfl⟩
  · rw [if_neg fun htest => hmem (testBitmap_iff.mp htest)]
    exact ⟨_, rfl, count, hscan.skip hmem, rfl⟩

/-- The body of the second loop. -/
def redundKid (n : MbNode) (ip : IpV4) (w c : ℕ) (redund : BitVec 32) (pos : ℕ) :
    Option (BitVec 32) :=
  if testBitmap n.external pos then do
    let next ← n.child pos
    bitmapRedundRule next (orShiftedV4 ip pos (sub32 w STRIDE)) (sub32 w STRIDE)
      ((c + STRIDE) % 2 ^ 32) redund
  else some redund

theorem bitmapRedundRule_eq (n : MbNode) (ip : IpV4) (w c : ℕ) (redund : BitVec 32) :
    bitmapRedundRule n ip w c redund = (do
      let st ← (List.range STRIDE).foldlM (fun (st : Nhi × BitVec 32) cidr =>
        (List.range (2 ^ cidr)).foldlM (fun (st : Nhi × BitVec 32) bit =>
          redundRule n st.1 st.2 cidr bit) st) (0, redund)
      (List.range (2 ^ STRIDE)).foldlM (redundKid n ip w c) st.2) := by
  rw [bitmapRedundRule]
  congr 1
  funext st
  congr 1
  funext redund pos
  simp only [redundKid, countEnlBitmap]
  by_cases htest : testBitmap n.external pos
  · rw [if_pos htest, if_pos htest]
    split
    · rename_i next hnext
      rw [hnext]
      rfl
    · rename_i hnone
      rw [hnone]
      rfl
  · rw [if_neg htest, if_neg htest]

/-- **The count is the redundancy of the table.** -/
theorem bitmapRedundRule_spec (hn : n.Wf w) (ip : IpV4) (left cur : ℕ) (redund : BitVec 32) :
    bitmapRedundRule n ip left cur redund =
      some (redund + BitVec.ofNat 32 (redundancy n.get)) := by
  induction n using MbNode.induction generalizing w ip left cur redund with
  | h n ih =>
      obtain ⟨st, hrules, own, hscan, hst⟩ := foldlM_positions
        (f := fun (st : Nhi × BitVec 32) cidr bit => redundRule n st.1 st.2 cidr bit)
        (RuleSeen n redund) (s := (0, redund)) ⟨0, scanned_zero, by simp⟩
        fun t st _ h => h.step hn
      have hown : (repeated 0 (members n.internal) n.rule).card = own := by
        refine hscan.card_repeated fun pos hpos => ?_
        obtain ⟨t, ht, rfl⟩ := exists_inlPos_of_mem hn hpos
        exact inlPos_lt_bits ht
      have hstart : st.2 = redund + BitVec.ofNat 32 (redundancyBelow n 0) := by
        rw [hst, redundancyBelow, hown]
        simp
      obtain ⟨redund', hkids, hredund'⟩ := Run.foldlM_range (f := redundKid n ip left cur)
        (n := 2 ^ STRIDE)
        (fun i redund' => redund' = redund + BitVec.ofNat 32 (redundancyBelow n i))
        hstart fun i redund' hi hredund' => by
          rw [redundKid, redundancyBelow_succ n hn.layout, BitVec.ofNat_add, ← BitVec.add_assoc,
            ← hredund']
          by_cases hmem : i ∈ members n.external
          · obtain ⟨c, hc⟩ := exists_kid hn.layout hmem
            refine ⟨_, ?_, rfl⟩
            rw [if_pos (testBitmap_iff.mpr hmem), child_eq_kid hmem, hc]
            exact ih c (MbNode.child_mem ((child_eq_kid hmem).trans hc)) (hn.kids hc) _ _ _ _
          · refine ⟨redund', if_neg fun htest => hmem (testBitmap_iff.mp htest), ?_⟩
            have hnone : n.kid i = none := lookup_of_notMem hmem
            rw [hnone]
            simp
      have hall : readBelow (members n.external) n.children (2 ^ STRIDE) = n.children :=
        readBelow_of_forall_lt hn.layout.children_length fun _ h => lt_of_mem_members h
      rw [bitmapRedundRule_eq, hrules]
      refine hkids.trans ?_
      rw [hredund', redundancyBelow, hall, redundancy_eq hn]
      simp

end Trie

/-! ## Runs -/

section Runs

variable {α : Type} [IpAddr α] [DecidableEq α] {T : Stored α}

/-- The stored prefixes with the next hop of the one before them in their node. -/
def Stored.repeats (T : Stored α) : Finset (Prefix α) :=
  T.keys.filter fun p => ∃ q ∈ T.keys, T.lookup q = T.lookup p ∧ T.lookup p ≠ some 0 ∧
    Precedes q.bits p.bits ∧ ∀ r ∈ T.keys, Precedes q.bits r.bits → ¬ Precedes r.bits p.bits

theorem mem_repeats_iff {p : Prefix α} : p ∈ T.repeats ↔ RepeatsIn T.table p.bits := by
  rw [Stored.repeats, Finset.mem_filter, Finmap.mem_keys]
  constructor
  · intro h
    obtain ⟨hp, q, -, hlookup, hne, hpre, hleast⟩ := h
    obtain ⟨v, hv⟩ := Finmap.mem_iff.mp hp
    refine ⟨q.bits, v, ?_, ?_, fun hzero => hne (hzero ▸ hv), hpre, fun u hu hqu => ?_⟩
    · rw [table_bits, hlookup, hv]
    · rw [table_bits, hv]
    · obtain ⟨x, hx⟩ := Option.ne_none_iff_exists'.mp hu
      obtain ⟨r, rfl, hr⟩ := exists_prefix_of_table hx
      exact hleast r (Finmap.mem_keys.mpr (Finmap.mem_of_lookup_eq_some hr)) hqu
  · intro h
    obtain ⟨t, v, ht, hv, hne, hpre, hleast⟩ := h
    obtain ⟨q, rfl, hq⟩ := exists_prefix_of_table ht
    rw [table_bits] at hv
    refine ⟨Finmap.mem_of_lookup_eq_some hv, q,
      Finmap.mem_keys.mpr (Finmap.mem_of_lookup_eq_some hq), hq.trans hv.symm, ?_, hpre,
      fun r hr hqr => ?_⟩
    · rw [hv]
      simpa using hne
    · exact hleast r.bits (mem_iff_table.mp (Finmap.mem_keys.mp hr)) hqr

/-- The redundancy of a map is the number of its prefixes that repeat. -/
theorem redundancy_table (T : Stored α) : redundancy T.table = T.repeats.card := by
  refine Counted.redundancy_eq ⟨T.repeats.image Prefix.bits, fun s => ?_,
    Finset.card_image_of_injective _ Prefix.bits_injective⟩
  rw [Finset.mem_image, and_true]
  constructor
  · intro h
    obtain ⟨p, hp, rfl⟩ := h
    exact mem_repeats_iff.mp hp
  · intro hrep
    obtain ⟨p, rfl⟩ : ∃ p : Prefix α, p.bits = s := by
      obtain ⟨t, v, -, hv, -⟩ := hrep
      obtain ⟨p, hp, -⟩ := exists_prefix_of_table hv
      exact ⟨p, hp⟩
    exact ⟨p, mem_repeats_iff.mpr hrep, rfl⟩

theorem Mirrors.bitmapRedundRule {T : Stored IpV4} {st : MbNode × Mm} (h : Mirrors st T)
    (ip : IpV4) (left cur : ℕ) (redund : BitVec 32) :
    bitmapRedundRule st.1 ip left cur redund =
      some (redund + BitVec.ofNat 32 T.repeats.card) := by
  rw [bitmapRedundRule_spec h.wf, h.get, redundancy_table]

/-- Nothing repeats where there is no more than one string. -/
theorem redundancy_eq_zero {T : Table Bool Nhi} (h : ∀ u, u ≠ [] → T u = none) :
    redundancy T = 0 := by
  refine Counted.redundancy_eq ⟨∅, fun s => ?_, Finset.card_empty⟩
  simp only [Finset.notMem_empty, and_true, false_iff]
  intro hrep
  obtain ⟨t, v, ht, hs, -, hpre, -⟩ := hrep
  have hnil : ∀ u, T u = some v → u = [] := by
    intro u hu
    by_contra hne
    rw [h u hne] at hu
    cases hu
  rw [hnil t ht, hnil s hs] at hpre
  exact lt_irrefl _ hpre.2

/-- **The sum over the init table.** -/
theorem Pushes.tbmRedundRuleCount {T : Stored IpV4} {trie : TbmTrie} (h : Pushes trie T) :
    tbmRedundRuleCount trie =
      some (BitVec.ofNat 32 (∑ x, redundancy (pushed T.table (indexBits x)))).toInt := by
  let total (i : ℕ) : ℕ :=
    ∑ x with (x : Fin (2 ^ INITIAL_BITS)).val < i, redundancy (pushed T.table (indexBits x))
  obtain ⟨redund, hloop, hredund⟩ := Run.foldlM_range (f := redundEntry trie)
    (n := 2 ^ INITIAL_BITS)
    (fun i redund => redund = BitVec.ofNat 32 (total i)) (s := 0#32) (by simp [total])
    fun i redund hi hredund => by
      have hk := coverLength_indexBits_le T.table ⟨i, hi⟩
      have htotal : total (i + 1) =
          redundancy (pushed T.table (indexBits ⟨i, hi⟩)) + total i := sum_below_succ _ hi
      simp only [redundEntry, initIndex_of_lt hi, Option.bind_eq_bind, Option.bind_some]
      cases hchild : (trie.init ⟨i, hi⟩).hasChild with
      | true =>
          obtain ⟨-, wf, get, -⟩ := (h.entries ⟨i, hi⟩).of_hasChild hk hchild
          refine ⟨_, bitmapRedundRule_spec wf _ _ _ _, ?_⟩
          rw [get, hredund, htotal, BitVec.ofNat_add, BitVec.add_comm]
      | false =>
          obtain ⟨-, long, -⟩ := (h.entries ⟨i, hi⟩).of_not_hasChild hk hchild
          refine ⟨redund, rfl, ?_⟩
          rw [hredund, htotal, redundancy_eq_zero, zero_add]
          intro u hu
          rw [pushed_of_ne_nil _ _ hu, long u hu]
  have hall : total (2 ^ INITIAL_BITS) = ∑ x, redundancy (pushed T.table (indexBits x)) := by
    simp only [total]
    rw [Finset.filter_true_of_mem fun x _ => x.isLt]
  rw [TreeBitmap.tbmRedundRuleCount, hloop, hredund, hall]
  rfl

end Runs

/-- **What the two functions count**, after any run: `bitmap_redund_rule` the stored prefixes that
have the next hop of the one before them in their node, `tbm_redund_rule_count` the repeats in the
tries of the init table, each of which starts with the next hop that is pushed down to it. -/
theorem runs_redundancy :
    (∀ op, (mmInit op).Succeeds → ∀ ops, (storedMachine IpV4).Legal ∅ ops →
      ∃ root m, ops.foldlM bitmapStep (.zero, mmInit op) = some (root, m) ∧
        ∀ ip left cur redund, bitmapRedundRule root ip left cur redund =
          some (redund + BitVec.ofNat 32 ((storedMachine IpV4).exec ∅ ops).repeats.card)) ∧
    (∀ ops, (tbmMachine IpV4).Legal ∅ ops →
      ∃ trie, ops.foldlM tbmStep tbmInitTrie = some trie ∧
        tbmRedundRuleCount trie = some (BitVec.ofNat 32 (∑ x,
          redundancy (pushed ((tbmMachine IpV4).exec ∅ ops).table (indexBits x)))).toInt) := by
  constructor
  · intro op hop ops hops
    obtain ⟨⟨root, m⟩, lost, hrun, hmir, -⟩ := exists_booked_run hop hops
    exact ⟨root, m, bitmapStep_eq ▸ hrun, fun ip left cur redund =>
      hmir.bitmapRedundRule ip left cur redund⟩
  · intro ops hops
    obtain ⟨trie, hrun, hpush⟩ := exists_leafStep_run hops
    exact ⟨trie, tbmStep_eq ▸ hrun, hpush.tbmRedundRuleCount⟩

/-- `10.0.0.0/22`, which ends in the node of `10.0.0.0/24` below their entry. -/
def tenSlash22 : Prefix IpV4 := ⟨0x0a000000#32, 22, by decide, by decide⟩

theorem runs_redundancy_insert :
    (∃ root m, [Op.insert upperHalf 1, .insert lowerHalf 1].foldlM bitmapStep
        (.zero, mmInit simple) = some (root, m) ∧
      ∀ ip left cur redund, bitmapRedundRule root ip left cur redund = some (redund + 1#32)) ∧
    (∃ trie, [Op.insert tenSlash24 1, .insert tenSlash22 1].foldlM tbmStep tbmInitTrie =
        some trie ∧
      tbmRedundRuleCount trie = some (BitVec.ofNat 32 (∑ x, redundancy (pushed
        ((tbmMachine IpV4).exec ∅ [Op.insert tenSlash24 1, .insert tenSlash22 1]).table
          (indexBits x)))).toInt) := by
  refine ⟨?_, runs_redundancy.2 _ ⟨⟨by decide, trivial⟩, ⟨by decide, trivial⟩, trivial⟩⟩
  obtain ⟨root, m, hrun, hcount⟩ := runs_redundancy.1 simple succeeds_mmInit_simple
    [Op.insert upperHalf 1, .insert lowerHalf 1] ⟨trivial, trivial, trivial⟩
  have hcard : ((storedMachine IpV4).exec ∅
      [Op.insert upperHalf 1, .insert lowerHalf 1]).repeats.card = 1 := by decide +kernel
  rw [hcard] at hcount
  exact ⟨root, m, hrun, hcount⟩

end TreeBitmap
