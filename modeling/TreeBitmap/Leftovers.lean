import TreeBitmap.Footprint
import TreeBitmap.Leaks
import TreeBitmap.Callbacks

/-!
# What a destroyed trie leaves behind

`destroy_subtrie` counts the children of a node after it has cleared their bitmap, so that a block
is given back without the units of the children.  What is left in the counters is one unit for
each node but the root: at level `l`, one for each string of `6 * (l + 1)` bits with which a stored
prefix starts.  In the tries of an init table these are the strings of 13 bits more.  The counters
show this modulo `2 ^ 32`; those of level 0 never come near it.

## Main definitions

* `Refunded m m' bs` — the blocks were given back, and counted out.
* `destroySubtrie_refunded` — what `destroy_subtrie` counts out.
* `TrieLeftover`, `EngineLeftover` — what the counters show in the end.
* `tries_leftover`, `engines_leftover` — **what is left after any run**.
-/

namespace TreeBitmap

open BitString LongestMatch Ranked Ledger

/-! ## What is counted out -/

/-- The blocks were given back, last one first, and their units were counted out. -/
structure Refunded (m m' : Mm) (bs : List Block) : Prop where
  calls : m'.calls = bs.map Block.dealloc ++ m.calls
  lnode : ∀ l : Fin MAX_LEVEL, m.ms.lnode l = m'.ms.lnode l + BitVec.ofNat 32 (unitsAt bs l)
  lmem : ∀ l : Fin MAX_LEVEL,
    m.ms.lmem l = m'.ms.lmem l + BitVec.ofNat 32 (unitsAt bs l * NODE_SIZE)
  node : m.ms.node = m'.ms.node + BitVec.ofNat 32 (∑ l : Fin MAX_LEVEL, unitsAt bs l)
  mem : m.ms.mem = m'.ms.mem + BitVec.ofNat 32 (∑ l : Fin MAX_LEVEL, unitsAt bs l * NODE_SIZE)

theorem refunded_refl (m : Mm) : Refunded m m [] := by
  refine ⟨rfl, fun l => ?_, fun l => ?_, ?_, ?_⟩
  all_goals simp

theorem Refunded.trans {m m₁ m₂ : Mm} {bs bs' : List Block} (h : Refunded m m₁ bs)
    (h' : Refunded m₁ m₂ bs') : Refunded m m₂ (bs' ++ bs) := by
  have hunits : ∀ l, unitsAt ((bs' ++ bs : List Block) : Multiset Block) l =
      unitsAt bs' l + unitsAt bs l := by
    intro l
    rw [← Multiset.coe_add, unitsAt_add]
  refine ⟨?_, fun l => ?_, fun l => ?_, ?_, ?_⟩
  · rw [h'.calls, h.calls, List.map_append, List.append_assoc]
  · rw [h.lnode, h'.lnode, hunits, BitVec.ofNat_add, BitVec.add_assoc]
  · rw [h.lmem, h'.lmem, hunits, Nat.add_mul, BitVec.ofNat_add, BitVec.add_assoc]
  · simp only [h.node, h'.node, hunits, Finset.sum_add_distrib, BitVec.ofNat_add, BitVec.add_assoc]
  · simp only [h.mem, h'.mem, hunits, Nat.add_mul, Finset.sum_add_distrib, BitVec.ofNat_add,
      BitVec.add_assoc]

theorem refunded_deallocNode {m m' : Mm} {nodeNum level : ℕ} {p : Ptr}
    (h : deallocNode m nodeNum level p = some m') : Refunded m m' [⟨p, nodeNum, level⟩] := by
  rw [deallocNode] at h
  split_ifs at h with hlevel
  obtain rfl := Option.some.inj h
  have hunits : ∀ l : Fin MAX_LEVEL,
      unitsAt (([⟨p, nodeNum, level⟩] : List Block) : Multiset Block) l =
        if l = ⟨level, hlevel⟩ then nodeNum else 0 := by
    intro l
    rw [Multiset.coe_singleton, unitsAt_singleton]
    simp only [Fin.ext_iff, eq_comm]
  have hcounter : ∀ (f : Fin MAX_LEVEL → BitVec 32) (k : ℕ) (l : Fin MAX_LEVEL),
      f l = Function.update f ⟨level, hlevel⟩ (f ⟨level, hlevel⟩ - BitVec.ofNat 32 k) l +
        BitVec.ofNat 32 (if l = ⟨level, hlevel⟩ then k else 0) := by
    intro f k l
    by_cases hl : l = ⟨level, hlevel⟩
    · rw [if_pos hl, hl, Function.update_self, BitVec.sub_add_cancel]
    · rw [if_neg hl, Function.update_of_ne hl, BitVec.add_zero]
  refine ⟨rfl, fun l => ?_, fun l => ?_, ?_, ?_⟩
  · rw [hunits]
    exact hcounter m.ms.lnode nodeNum l
  · rw [hunits, ite_mul, zero_mul]
    exact hcounter m.ms.lmem (nodeNum * NODE_SIZE) l
  · simp only [hunits, Finset.sum_ite_eq', Finset.mem_univ, if_true]
    exact (BitVec.sub_add_cancel _ _).symm
  · simp only [hunits, ite_mul, zero_mul, Finset.sum_ite_eq', Finset.mem_univ, if_true]
    exact (BitVec.sub_add_cancel _ _).symm

/-- What every call of `dealloc_node` keeps, `destroy_subtrie` keeps. -/
theorem destroySubtrie_preserves {P : Mm → Mm → Prop} (hrefl : ∀ m, P m m)
    (htrans : ∀ m m₁ m₂, P m m₁ → P m₁ m₂ → P m m₂)
    (hdealloc : ∀ m nodeNum level p m', deallocNode m nodeNum level p = some m' → P m m')
    {m m' : Mm} {n : MbNode} {d : Bool} {level : ℕ} {calls : List Nhi}
    (h : destroySubtrie m n d level = some (m', calls)) : P m m' := by
  induction n using MbNode.induction generalizing m m' level calls with
  | h n ih =>
      rw [destroySubtrie_eq] at h
      obtain ⟨⟨n', calls₁⟩, -, h⟩ := Option.bind_eq_some_iff.mp h
      obtain ⟨⟨m₁, calls₂⟩, hloop, h⟩ := Option.bind_eq_some_iff.mp h
      obtain ⟨first, -, h⟩ := Option.bind_eq_some_iff.mp h
      obtain ⟨m₂, hfree, h⟩ := Option.bind_eq_some_iff.mp h
      obtain ⟨rfl, -⟩ := Prod.mk.inj (Option.some.inj h)
      have hkids : P m m₁ := by
        refine Run.foldlM_range_of_eq_some (fun _ (st : Mm × List Nhi) => P m st.1) (hrefl m) ?_
          hloop
        intro pos st st' _ hst hround
        simp only [destroyKid] at hround
        split_ifs at hround with htest
        · obtain ⟨c, hc, hround⟩ := Option.bind_eq_some_iff.mp hround
          obtain ⟨⟨m₃, more⟩, hrec, hround⟩ := Option.bind_eq_some_iff.mp hround
          obtain rfl := Option.some.inj hround
          exact htrans _ _ _ hst (ih c (MbNode.child_mem hc) hrec)
        · obtain rfl := Option.some.inj hround
          exact hst
      refine htrans _ _ _ hkids ?_
      cases first with
      | none =>
          obtain rfl := Option.some.inj hfree
          exact hrefl _
      | some p => exact hdealloc _ _ _ _ _ hfree

/-- **What `destroy_subtrie` counts out**: the blocks as it describes them. -/
theorem destroySubtrie_refunded {m : Mm} {n : MbNode} {w level : ℕ} (hn : n.Wf w)
    (hlevel : level + w / 6 < MAX_LEVEL) (d : Bool) :
    ∃ m' calls, ∃ bs : List Block, destroySubtrie m n d level = some (m', calls) ∧
      (calls : Multiset Nhi) = handed d (n.nhis level) ∧ (bs : Multiset Block) = n.freed level ∧
      Refunded m m' bs := by
  obtain ⟨m', calls, hdestroy, hrel⟩ := destroySubtrie_spec m hn hlevel d
  obtain ⟨bs, href⟩ : ∃ bs, Refunded m m' bs :=
    destroySubtrie_preserves (P := fun m m' => ∃ bs, Refunded m m' bs)
      (fun m => ⟨[], refunded_refl m⟩) (fun _ _ _ ⟨_, h⟩ ⟨_, h'⟩ => ⟨_, h.trans h'⟩)
      (fun _ _ _ _ _ h => ⟨_, refunded_deallocNode h⟩) hdestroy
  obtain ⟨log, hlog, hmap⟩ := hrel.deallocs
  refine ⟨m', calls, bs, hdestroy, hrel.calls, ?_, href⟩
  have heq : bs.map Block.dealloc = log := List.append_cancel_right (href.calls.symm.trans hlog)
  apply Multiset.map_injective dealloc_injective
  rw [← hmap, ← heq, Multiset.map_coe]

/-- What is left in the counters. -/
theorem Refunded.shows {m m' : Mm} {bs : List Block} {units left : ℕ → ℕ} (h : Refunded m m' bs)
    (hm : m.ms.Shows units) (hleft : ∀ l, units l = left l + unitsAt bs l) :
    m'.ms.Shows left := by
  have hcancel : ∀ {x y : BitVec 32} {a b c : ℕ}, x = BitVec.ofNat 32 a →
      x = y + BitVec.ofNat 32 c → a = b + c → y = BitVec.ofNat 32 b := by
    intro x y a b c hx hy habc
    rw [hx, habc, BitVec.ofNat_add] at hy
    exact ((BitVec.add_left_inj _).mp hy).symm
  refine ⟨fun l => ?_, fun l => ?_, ?_, ?_⟩
  · exact hcancel (hm.lnode l) (h.lnode l) (hleft l)
  · refine hcancel (hm.lmem l) (h.lmem l) ?_
    rw [hleft, Nat.add_mul]
  · refine hcancel hm.node h.node ?_
    rw [← Finset.sum_add_distrib]
    exact Finset.sum_congr rfl fun l _ => hleft l
  · refine hcancel hm.mem h.mem ?_
    rw [← Finset.sum_add_distrib]
    exact Finset.sum_congr rfl fun l _ => by rw [hleft, Nat.add_mul]

/-! ## What is left -/

/-- Blocks that each node of some kind adds at its own level. -/
theorem unitsAt_collect_of {P : MbNode → Prop} (hP : ∀ c, P c → ∀ d ∈ c.children, P d)
    {g : ℕ → MbNode → Multiset Block} {f : MbNode → ℕ}
    (hg : ∀ c level l, P c → unitsAt (g level c) l = if level = l then f c else 0)
    {n : MbNode} (hn : P n) (level l : ℕ) :
    unitsAt (n.collect g level) l = if level ≤ l then n.sumAtDepth f (l - level) else 0 := by
  induction n using MbNode.induction generalizing level with
  | h n ih =>
      have hinner : unitsAt (n.inner g level) l =
          (n.children.map fun c =>
            if level + 1 ≤ l then c.sumAtDepth f (l - (level + 1)) else 0).sum := by
        rw [MbNode.inner, unitsAt_sum, List.map_map]
        exact congrArg List.sum (List.map_congr_left fun c hc => ih c hc (hP n hn c hc) (level + 1))
      rw [collect_eq_inner, unitsAt_add, hg n level l hn, hinner]
      rcases lt_trichotomy l level with hlt | heq | hgt
      · rw [if_neg (by omega), if_neg (by omega)]
        simp [show ¬ level + 1 ≤ l by omega]
      · rw [if_pos heq.symm, if_pos heq.ge, heq, Nat.sub_self, MbNode.sumAtDepth]
        simp
      · obtain ⟨k, rfl⟩ : ∃ k, l = level + 1 + k := ⟨l - (level + 1), by omega⟩
        have hk : level + 1 + k - level = k + 1 := by omega
        rw [if_neg (by omega), if_pos (by omega), hk, MbNode.sumAtDepth]
        simp

theorem unitsAt_collect {g : ℕ → MbNode → Multiset Block} {f : MbNode → ℕ}
    (hg : ∀ c w level l, c.Wf w → unitsAt (g level c) l = if level = l then f c else 0)
    {n : MbNode} {w : ℕ} (hn : n.Wf w) (level l : ℕ) :
    unitsAt (n.collect g level) l = if level ≤ l then n.sumAtDepth f (l - level) else 0 := by
  refine unitsAt_collect_of (P := fun c => ∃ w, c.Wf w) (fun c hc d hd => ?_)
    (fun c level l hc => ?_) ⟨w, hn⟩ level l
  · obtain ⟨w, hc⟩ := hc
    exact ⟨w - 6, hc.kids_of_mem hd⟩
  · obtain ⟨w, hc⟩ := hc
    exact hg c w level l hc

/-- What `destroy_subtrie` gives back are the units of the next hops. -/
theorem unitsAt_freed {n : MbNode} {w : ℕ} (hn : n.Wf w) (l : ℕ) :
    unitsAt (n.freed 0) l = n.sumAtDepth (fun c => upRule (countChildren c.internal)) l := by
  rw [MbNode.freed, unitsAt_collect _ hn, if_pos (Nat.zero_le l), Nat.sub_zero]
  intro c w level l hc
  rw [MbNode.ownFreed, MbNode.base]
  rcases hp : c.childPtr with _ | p
  · rw [(hc.layout.count_of_null hp).1, upRule]
    simp [granted, NODE_SIZE]
  · exact unitsAt_singleton _ l

/-- **One unit is left for each node but the root.** -/
theorem unitsAtDepth_eq_freed {n : MbNode} {w : ℕ} (hn : n.Wf w) (l : ℕ) :
    n.unitsAtDepth l = (n.stems (l + 1)).card + unitsAt (n.freed 0) l := by
  rw [unitsAtDepth_eq_add hn, sumAtDepth_one hn, unitsAt_freed hn]

section Runs

variable {α : Type} [IpAddr α] [DecidableEq α] {T : Stored α} {trie : TbmTrie}

theorem Mirrors.card_stems_succ {st : MbNode × Mm} (h : Mirrors st T) (l : ℕ) :
    (st.1.stems (l + 1)).card = (T.stems (6 * (l + 1))).card := by
  congr 1
  ext t
  rw [mem_stems_succ_iff h.wf, mem_stored_stems_iff, h.get]

/-- A trie with its memory manager, after `destroy_subtrie` has gone over it. -/
theorem Booked.leftover {st : MbNode × Mm} {q : Prop} {lost : Multiset Block}
    (h : Booked st q lost) (hmir : Mirrors st T) (d : Bool) :
    ∃ m' calls, destroySubtrie st.2 st.1 d 0 = some (m', calls) ∧
      (calls : Multiset Nhi) = handed d T.values ∧
      m'.ms.Shows fun l => (T.stems (6 * (l + 1))).card := by
  obtain ⟨m', calls, bs, hdestroy, hcalls, hbs, href⟩ :=
    destroySubtrie_refunded (m := st.2) hmir.wf (level_zero α) d
  have hshows : st.2.ms.Shows fun l => st.1.unitsAtDepth l := by
    refine (h.sound.accountedFor fun l => ?_).counters
    rw [h.live, unitsAt_add, unitsAt_of_units_eq_zero h.units, add_zero,
      ← unitsAt_blocks hmir.wf 0 l, zero_add]
  refine ⟨m', calls, hdestroy, hcalls.trans (by rw [hmir.nhis]), href.shows hshows fun l => ?_⟩
  rw [hbs, unitsAtDepth_eq_freed hmir.wf, hmir.card_stems_succ]

/-- What is left of a trie in the counters: at level `l` one unit for each string of `6 * (l + 1)`
bits with which a stored prefix starts, modulo `2 ^ 32`. -/
structure TrieLeftover (T : Stored α) (ms : MemStat) : Prop where
  shows : ms.Shows fun l => (T.stems (6 * (l + 1))).card
  /-- Nothing is left just if no prefix reaches a second node. -/
  zero_iff : ms = MemStat.zero ↔ ∀ p ∈ T, p.cidr < 6

theorem card_stems_le (T : Stored α) (k : ℕ) : (T.stems k).card ≤ 2 ^ k := by
  have hlen : ∀ t ∈ T.stems k, t.length = k := fun t ht => (mem_stored_stems_iff.mp ht).1
  rw [← Finset.card_range (2 ^ k)]
  refine Finset.card_le_card_of_injOn value (fun t ht => ?_) fun t ht u hu heq => ?_
  · have hlt := value_lt t
    rw [hlen t ht] at hlt
    exact Finset.mem_coe.mpr (Finset.mem_range.mpr hlt)
  · exact value_injective ((hlen t ht).trans (hlen u hu).symm) heq

omit [DecidableEq α] in
theorem stems_eq_empty_iff {k : ℕ} : T.stems k = ∅ ↔ ∀ p ∈ T, p.cidr < k := by
  rw [Stored.stems, Finset.image_eq_empty, Finset.filter_eq_empty_iff]
  simp only [Finmap.mem_keys, not_le]

theorem MemStat.Shows.eq_zero {ms : MemStat} (h : ms.Shows fun _ => 0) : ms = MemStat.zero := by
  obtain ⟨hlnode, hlmem, hnode, hmem⟩ := h
  cases ms
  simp only [Nat.zero_mul, Finset.sum_const_zero] at hlmem hnode hmem
  rw [MemStat.zero, MemStat.mk.injEq]
  exact ⟨hmem, hnode, funext hlmem, funext hlnode⟩

theorem MemStat.Shows.trieLeftover {ms : MemStat}
    (h : ms.Shows fun l => (T.stems (6 * (l + 1))).card) : TrieLeftover T ms := by
  refine ⟨h, fun hzero => ?_, fun hshort => ?_⟩
  · -- there are 64 strings of 6 bits, and the counter goes further
    have hcount := h.lnode ⟨0, by decide⟩
    rw [hzero] at hcount
    have hmod : 0 = (T.stems 6).card % 2 ^ 32 :=
      (congrArg BitVec.toNat hcount).trans (BitVec.toNat_ofNat _ _)
    have hle := card_stems_le T 6
    have hcard : (T.stems 6).card = 0 := by omega
    exact stems_eq_empty_iff.mp (Finset.card_eq_zero.mp hcard)
  · have hnone : ∀ l, (T.stems (6 * (l + 1))).card = 0 := by
      intro l
      refine Finset.card_eq_zero.mpr (stems_eq_empty_iff.mpr fun p hp => ?_)
      have hlt := hshort p hp
      omega
    simp only [hnone] at h
    exact h.eq_zero

theorem exists_run_leftover {op : MemOp} (hop : (mmInit op).Succeeds) {ops : List (Op α)}
    (hops : (storedMachine α).Legal ∅ ops) (d : Bool) :
    ∃ root m m' calls, ops.foldlM trieStep (.zero, mmInit op) = some (root, m) ∧
      destroySubtrie m root d 0 = some (m', calls) ∧
      TrieLeftover ((storedMachine α).exec ∅ ops) m'.ms := by
  obtain ⟨⟨root, m⟩, lost, hrun, hmir, -, hbook⟩ := exists_booked_run hop hops
  obtain ⟨m', calls, hdestroy, -, hshows⟩ := hbook.leftover hmir d
  exact ⟨root, m, m', calls, hrun, hdestroy, hshows.trieLeftover⟩

/-! ## The entries -/

/-- Below its index, the trie of an entry holds the map. -/
theorem Pushes.get_trie (h : Pushes trie T) (x : Fin (2 ^ INITIAL_BITS)) {u : List Bool}
    (hu : u ≠ []) : (trie.init x).trie.get u = T.table (indexBits x ++ u) := by
  have hk := coverLength_indexBits_le T.table x
  cases hchild : (trie.init x).hasChild with
  | true =>
      obtain ⟨-, -, get, -⟩ := (h.entries x).of_hasChild hk hchild
      rw [trie_of_hasChild hchild, get, pushed_of_ne_nil T.table _ hu]
  | false =>
      obtain ⟨-, long, -, -, empty⟩ := (h.entries x).of_not_hasChild hk hchild
      rw [trie_of_not_hasChild hchild, get_of_isEmpty empty, long u hu]

theorem Pushes.mem_stems_trie (h : Pushes trie T) (x : Fin (2 ^ INITIAL_BITS)) (l : ℕ)
    (t : List Bool) :
    t ∈ (trie.init x).trie.stems (l + 1) ↔
      indexBits x ++ t ∈ T.stems (INITIAL_BITS + 6 * (l + 1)) := by
  have hlen : (indexBits x ++ t).length = INITIAL_BITS + 6 * (l + 1) ↔ t.length = 6 * (l + 1) := by
    rw [List.length_append, length_indexBits, Nat.add_left_cancel_iff]
  rw [mem_stems_succ_iff (h.wf_trie x), mem_stored_stems_iff, hlen]
  refine and_congr_right fun ht => exists_congr fun u => ?_
  have hne : t ++ u ≠ [] := by
    apply List.ne_nil_of_length_pos
    rw [List.length_append]
    omega
  rw [h.get_trie x hne, List.append_assoc]

/-- The nodes of all entries at one depth. -/
theorem Pushes.sum_card_stems (h : Pushes trie T) (l : ℕ) :
    ∑ x, ((trie.init x).trie.stems (l + 1)).card =
      (T.stems (INITIAL_BITS + 6 * (l + 1))).card := by
  have hunion : T.stems (INITIAL_BITS + 6 * (l + 1)) = Finset.univ.biUnion fun x =>
      ((trie.init x).trie.stems (l + 1)).image (indexBits x ++ ·) := by
    ext s
    rw [Finset.mem_biUnion]
    constructor
    · intro hs
      obtain ⟨hlen, -⟩ := mem_stored_stems_iff.mp hs
      have htake : (s.take INITIAL_BITS).length = INITIAL_BITS := by
        rw [List.length_take]
        omega
      obtain ⟨x, -, hx⟩ := exists_initIndex htake
      have hsplit : indexBits x ++ s.drop INITIAL_BITS = s := by
        rw [hx, List.take_append_drop]
      refine ⟨x, Finset.mem_univ x, Finset.mem_image.mpr ⟨s.drop INITIAL_BITS, ?_, hsplit⟩⟩
      exact (h.mem_stems_trie x l _).mpr (hsplit.symm ▸ hs)
    · intro hs
      obtain ⟨x, -, hs⟩ := hs
      obtain ⟨t, ht, rfl⟩ := Finset.mem_image.mp hs
      exact (h.mem_stems_trie x l t).mp ht
  rw [hunion, Finset.card_biUnion]
  · refine Finset.sum_congr rfl fun x _ => ?_
    rw [Finset.card_image_of_injective _ (List.append_right_injective _)]
  · intro x _ y _ hne
    rw [Function.onFun, Finset.disjoint_left]
    intro s hs hs'
    obtain ⟨t, -, rfl⟩ := Finset.mem_image.mp hs
    obtain ⟨t', -, ht'⟩ := Finset.mem_image.mp hs'
    have hlen : (indexBits y).length = (indexBits x).length := by
      rw [length_indexBits, length_indexBits]
    exact hne (indexBits_injective (List.append_inj_left ht' hlen)).symm

/-- What the loop of `tbm_destroy_trie` gives back at one entry. -/
def entryFreed (skip : InitNode → Bool) (e : InitNode) : Multiset Block :=
  if skip e then 0 else e.node.freed 0

/-- The entries below `i`, and one more. -/
theorem sum_below_succ {M : Type} [AddCommMonoid M] (f : Fin (2 ^ INITIAL_BITS) → M) {i : ℕ}
    (hi : i < 2 ^ INITIAL_BITS) :
    ∑ x with (x : Fin (2 ^ INITIAL_BITS)).val < i + 1, f x =
      f ⟨i, hi⟩ + ∑ x with (x : Fin (2 ^ INITIAL_BITS)).val < i, f x := by
  have hinsert : Finset.univ.filter (fun x : Fin (2 ^ INITIAL_BITS) => x.val < i + 1) =
      insert ⟨i, hi⟩ (Finset.univ.filter fun x : Fin (2 ^ INITIAL_BITS) => x.val < i) := by
    ext x
    simp only [Finset.mem_filter, Finset.mem_univ, true_and, Finset.mem_insert, Fin.ext_iff]
    omega
  rw [hinsert, Finset.sum_insert (by simp)]

/-- **The loop of `tbm_destroy_trie`**, if it enters no entry without a trie. -/
theorem Pushes.destroyEntries_refunded (h : Pushes trie T) {skip : InitNode → Bool}
    (hskip : ∀ x, skip (trie.init x) = false → (trie.init x).hasChild = true) :
    ∃ st, ∃ bs : List Block, destroyEntries skip trie = some st ∧
      (bs : Multiset Block) = ∑ x, entryFreed skip (trie.init x) ∧ Refunded trie.m st.1 bs := by
  let P : ℕ → Mm × List (Fin (2 ^ INITIAL_BITS)) → Prop := fun i st => ∃ bs : List Block,
    (bs : Multiset Block) =
      ∑ x with (x : Fin (2 ^ INITIAL_BITS)).val < i, entryFreed skip (trie.init x) ∧
    Refunded trie.m st.1 bs
  have hstart : P 0 (trie.m, []) := by
    have hnone : Finset.univ.filter (fun x : Fin (2 ^ INITIAL_BITS) => x.val < 0) = ∅ :=
      Finset.filter_false_of_mem fun x _ => Nat.not_lt_zero x.val
    refine ⟨[], ?_, refunded_refl trie.m⟩
    rw [hnone, Finset.sum_empty, Multiset.coe_nil]
  obtain ⟨st, hloop, bs, hbs, href⟩ : ∃ st, destroyEntries skip trie = some st ∧
      P (2 ^ INITIAL_BITS) st := by
    refine Run.foldlM_range P hstart fun i st hi hP => ?_
    obtain ⟨bs, hbs, href⟩ := hP
    simp only [initIndex_of_lt hi, Option.bind_eq_bind, Option.bind_some]
    by_cases hs : skip (trie.init ⟨i, hi⟩)
    · rw [if_pos hs]
      refine ⟨st, rfl, bs, ?_, href⟩
      rw [sum_below_succ _ hi, entryFreed, if_pos hs, zero_add, hbs]
    · have hwf := h.wf_of_hasChild (hskip ⟨i, hi⟩ (Bool.eq_false_iff.mpr hs))
      obtain ⟨m', calls, bs', hdestroy, -, hbs', href'⟩ := destroySubtrie_refunded (m := st.1) hwf
        (level_of_le (sub_INITIAL_BITS_le α)) false
      rw [if_neg hs]
      refine ⟨(m', st.2 ++ [⟨i, hi⟩]), by rw [hdestroy]; rfl, bs' ++ bs, ?_, href.trans href'⟩
      rw [sum_below_succ _ hi, entryFreed, if_neg hs, ← Multiset.coe_add, hbs, hbs']
  refine ⟨st, bs, hloop, ?_, href⟩
  rw [hbs, Finset.filter_true_of_mem fun x _ => x.isLt]

/-- What is left of an engine, modulo `2 ^ 32`: in `up_m` one unit for each node of `up_aux` but the
root, and in `m` one for each node of the entries but their roots. -/
structure EngineLeftover (T : Stored α) (r : Destroyed) : Prop where
  upM : r.upM.ms.Shows fun l => (T.stems (6 * (l + 1))).card
  m : r.m.ms.Shows fun l => (T.stems (INITIAL_BITS + 6 * (l + 1))).card

/-- The units of an entry, and what is given back of them. -/
theorem Pushes.unitsAtDepth_trie (h : Pushes trie T) {skip : InitNode → Bool}
    {x : Fin (2 ^ INITIAL_BITS)}
    (hskip : skip (trie.init x) = false ↔ (trie.init x).hasChild = true) (l : ℕ) :
    (trie.init x).trie.unitsAtDepth l =
      ((trie.init x).trie.stems (l + 1)).card + unitsAt (entryFreed skip (trie.init x)) l := by
  cases hchild : (trie.init x).hasChild with
  | true =>
      have hs : ¬ skip (trie.init x) = true := Bool.eq_false_iff.mp (hskip.mpr hchild)
      rw [unitsAtDepth_eq_freed (h.wf_trie x), entryFreed, if_neg hs, trie_of_hasChild hchild]
  | false =>
      have hs : skip (trie.init x) = true := by
        by_contra hs
        rw [hskip.mp (Bool.eq_false_iff.mpr hs)] at hchild
        cases hchild
      have hk := coverLength_indexBits_le T.table x
      have hempty : (trie.init x).trie.isEmpty := by
        rw [trie_of_not_hasChild hchild]
        exact ((h.entries x).of_not_hasChild hk hchild).2.2.2.2
      rw [unitsAtDepth_of_isEmpty (h.wf_trie x).layout hempty, entryFreed, if_pos hs, unitsAt_zero,
        MbNode.stems, (isEmpty_iff.mp hempty).2, Finset.biUnion_empty, Finset.card_empty]

theorem EngineBooked.leftover (h : EngineBooked trie) (hpush : Pushes trie T)
    (skip : InitNode → Bool)
    (hskip : ∀ x, skip (trie.init x) = false ↔ (trie.init x).hasChild = true) (d : Bool) :
    ∃ r, destroyTrie skip trie d = some r ∧ EngineLeftover T r := by
  obtain ⟨q, lost, haux⟩ := h.aux
  obtain ⟨upM, calls, hdestroy, -, hup⟩ := haux.leftover hpush.aux d
  obtain ⟨⟨m, visited⟩, bs, hloop, hbs, href⟩ :=
    hpush.destroyEntries_refunded fun x => (hskip x).mp
  refine ⟨⟨m, upM, calls, visited⟩, ?_, hup, ?_⟩
  · rw [destroyTrie]
    simp only at hdestroy
    rw [hdestroy, Option.bind_eq_bind, Option.bind_some, hloop]
    rfl
  · refine href.shows (h.accounted hpush).entries.counters fun l => ?_
    rw [hbs, unitsAt_finset_sum, ← hpush.sum_card_stems, ← Finset.sum_add_distrib, entryUnits]
    exact Finset.sum_congr rfl fun x _ => hpush.unitsAtDepth_trie (hskip x) l

end Runs

/-- **What a destroyed trie leaves in the counters**, after every run of either engine. -/
theorem tries_leftover {op : MemOp} (hop : (mmInit op).Succeeds) (d : Bool) :
    (∀ ops, (storedMachine IpV4).Legal ∅ ops →
      ∃ root m m' calls, ops.foldlM bitmapStep (.zero, mmInit op) = some (root, m) ∧
        bitmapDestroyTrie root m d = some (m', calls) ∧
        TrieLeftover ((storedMachine IpV4).exec ∅ ops) m'.ms) ∧
    (∀ ops, (storedMachine IpV6).Legal ∅ ops →
      ∃ root m m' calls, ops.foldlM bitmapv6Step (.zero, mmInit op) = some (root, m) ∧
        bitmapv6DestroyTrie root m d = some (m', calls) ∧
        TrieLeftover ((storedMachine IpV6).exec ∅ ops) m'.ms) := by
  rw [bitmapStep_eq, bitmapv6Step_eq]
  exact ⟨fun _ hops => exists_run_leftover hop hops d, fun _ hops => exists_run_leftover hop hops d⟩

theorem tries_leftover_insert :
    (∃ root m m' calls, tenOps.foldlM bitmapStep (.zero, mmInit simple) = some (root, m) ∧
      bitmapDestroyTrie root m true = some (m', calls) ∧
      TrieLeftover ((storedMachine IpV4).exec ∅ tenOps) m'.ms) ∧
    (∃ root m m' calls, docOps.foldlM bitmapv6Step (.zero, mmInit simple) = some (root, m) ∧
      bitmapv6DestroyTrie root m true = some (m', calls) ∧
      TrieLeftover ((storedMachine IpV6).exec ∅ docOps) m'.ms) :=
  ⟨(tries_leftover succeeds_mmInit_simple true).1 _ legal_tenOps,
    (tries_leftover succeeds_mmInit_simple true).2 _ legal_docOps⟩

/-- **What a destroyed engine leaves in the counters.**  The IPv6 one must not have to enter an
entry without a trie. -/
theorem engines_leftover (d : Bool) :
    (∀ ops, (tbmMachine IpV4).Legal ∅ ops →
      ∃ trie r, ops.foldlM tbmStep tbmInitTrie = some trie ∧ tbmDestroyTrie trie d = some r ∧
        EngineLeftover ((tbmMachine IpV4).exec ∅ ops) r) ∧
    (∀ ops, (tbmMachine IpV6).Legal ∅ ops →
      ∃ trie, ops.foldlM tbmv6Step tbmInitTrie = some trie ∧
        ((∀ p ∈ (tbmMachine IpV6).exec ∅ ops, ∀ x, p.Covers x → (trie.init x).hasChild = true) →
          ∃ r, tbmv6DestroyTrie trie d = some r ∧
            EngineLeftover ((tbmMachine IpV6).exec ∅ ops) r)) := by
  rw [tbmStep_eq, tbmv6Step_eq]
  constructor
  · intro ops hops
    obtain ⟨trie, hrun, hpush, hbook⟩ := exists_engineBooked_run hops
    obtain ⟨r, hdestroy, hleft⟩ := hbook.leftover hpush (fun e => !e.hasChild)
      (fun x => by rw [Bool.not_eq_false']) d
    exact ⟨trie, r, hrun, hdestroy, hleft⟩
  · intro ops hops
    obtain ⟨trie, hrun, hpush, hbook⟩ := exists_engineBooked_run hops
    refine ⟨trie, hrun, fun hall => hbook.leftover hpush (fun e => e.flags == 0) (fun x => ?_) d⟩
    constructor
    · intro hflags
      by_contra hnot
      rw [Bool.not_eq_true] at hnot
      refine absurd ((hpush.flags_eq_zero_iff hnot).mpr fun p hp hcov => ?_)
        (ne_of_beq_false hflags)
      rw [hall p hp x hcov] at hnot
      cases hnot
    · intro hchild
      refine beq_false_of_ne fun hzero => ?_
      rw [InitNode.hasChild, hzero] at hchild
      cases hchild

theorem engines_leftover_insert :
    (∃ trie r, tenOps.foldlM tbmStep tbmInitTrie = some trie ∧
      tbmDestroyTrie trie true = some r ∧
      EngineLeftover ((tbmMachine IpV4).exec ∅ tenOps) r) ∧
    (∃ trie r, docOps.foldlM tbmv6Step tbmInitTrie = some trie ∧
      tbmv6DestroyTrie trie true = some r ∧
      EngineLeftover ((tbmMachine IpV6).exec ∅ docOps) r) := by
  refine ⟨(engines_leftover true).1 _ engine_legal_tenOps, ?_⟩
  obtain ⟨trie, hrun, hleft⟩ := (engines_leftover true).2 docOps engine_legal_docOps
  have hlong : ∀ p ∈ ((tbmMachine IpV6).exec ∅ docOps).keys, INITIAL_BITS < p.cidr := by decide
  obtain ⟨r, hr⟩ := hleft fun p hp x hcov => by
    -- a prefix that is longer than the index covers no entry
    have hle := (Prefix.covers_iff.mp hcov).length_le
    rw [length_indexBits, Prefix.length_bits] at hle
    exact absurd (hlong p (Finmap.mem_keys.mpr hp)) (Nat.not_lt.mpr hle)
  exact ⟨trie, r, hrun, hr⟩

end TreeBitmap
