import TreeBitmap.EntryBooks
import Mathlib.Data.Set.Card

/-!
# What a routing table costs

A trie has a node for every string of whole strides that a stored prefix goes beyond or ends in,
and a unit of memory for each of these but the root.  Three next hops that end in one node share
a unit.  So the memory is a function of what is stored, whatever the run was that stored it, and
the counters show it modulo `2 ^ 32`.

## Main definitions

* `MbNode.stems d` — the strings at which a trie has its nodes of depth `d`.
* `MbNode.sumAtDepth f d`, `sumAtDepth_eq` — **a sum over the nodes is a sum over strings**.
* `Stored.stems`, `Stored.endings`, `Stored.footprint` — the memory that a map needs.
* `runs_footprint` — **and that is what the counters show after any run**.
-/

namespace TreeBitmap

open BitString LongestMatch Ranked

/-! ## The nodes of one depth -/

/-- The strings at which the nodes at depth `d` below `n` are. -/
def MbNode.stems : ℕ → MbNode → Finset (List Bool)
  | 0, _ => {[]}
  | d + 1, n => (members n.external).biUnion fun pos =>
      ((n.kid pos).elim ∅ (MbNode.stems d)).image (ofBitVec (BitVec.ofNat 6 pos) ++ ·)

/-- The sum of `f` over the nodes at depth `d` below `n`. -/
def MbNode.sumAtDepth (f : MbNode → ℕ) : ℕ → MbNode → ℕ
  | 0, n => f n
  | d + 1, n => (n.children.map (MbNode.sumAtDepth f d)).sum

section Nodes

variable {n : MbNode} {w d : ℕ} {f : MbNode → ℕ}

theorem unitsAtDepth_eq_sumAtDepth (d : ℕ) (n : MbNode) :
    n.unitsAtDepth d = n.sumAtDepth MbNode.units d := by
  induction d generalizing n with
  | zero => rfl
  | succ d ih =>
      rw [MbNode.unitsAtDepth, MbNode.sumAtDepth, funext ih]

theorem sumAtDepth_add (f g : MbNode → ℕ) (d : ℕ) (n : MbNode) :
    n.sumAtDepth (fun c => f c + g c) d = n.sumAtDepth f d + n.sumAtDepth g d := by
  induction d generalizing n with
  | zero => rfl
  | succ d ih =>
      rw [MbNode.sumAtDepth, MbNode.sumAtDepth, MbNode.sumAtDepth, funext ih,
        List.sum_map_add]

/-- The children of the nodes at one depth are the nodes at the next. -/
theorem sumAtDepth_succ (hn : n.Wf w) (d : ℕ) :
    n.sumAtDepth (fun _ => 1) (d + 1) =
      n.sumAtDepth (fun c => countChildren c.external) d := by
  induction d generalizing n w with
  | zero =>
      rw [MbNode.sumAtDepth, MbNode.sumAtDepth, ← hn.layout.countKids]
      simp [MbNode.sumAtDepth]
  | succ d ih =>
      exact congrArg List.sum (List.map_congr_left fun c hc => ih (hn.kids_of_mem hc))

/-- The sum over an array with one entry per member is one over the members. -/
theorem sum_map_children (hn : n.Layout) (f : MbNode → ℕ) :
    (n.children.map f).sum = ∑ pos ∈ members n.external, (n.kid pos).elim 0 f := by
  have hlookup := congrArg (fun s : Multiset (Option MbNode) => (s.map (·.elim 0 f)).sum)
    (map_lookup hn.children_length)
  simp only [Multiset.map_map, Multiset.map_coe, List.map_map, Multiset.sum_coe] at hlookup
  exact hlookup.symm

theorem take_stem (pos : ℕ) (t : List Bool) :
    (ofBitVec (BitVec.ofNat 6 pos) ++ t).take 6 = ofBitVec (BitVec.ofNat 6 pos) := by
  rw [List.take_append_of_le_length (by simp), List.take_of_length_le (by simp)]

theorem value_stem {pos : ℕ} (h : pos < 64) : value (ofBitVec (BitVec.ofNat 6 pos)) = pos := by
  rw [value_ofBitVec, BitVec.toNat_ofNat, Nat.mod_eq_of_lt h]

/-- A sum over the strings of the nodes, child by child. -/
theorem sum_stems_succ (n : MbNode) (d : ℕ) (g : List Bool → ℕ) :
    ∑ t ∈ n.stems (d + 1), g t = ∑ pos ∈ members n.external,
      (n.kid pos).elim 0 fun c => ∑ t ∈ c.stems d, g (ofBitVec (BitVec.ofNat 6 pos) ++ t) := by
  rw [MbNode.stems, Finset.sum_biUnion]
  · refine Finset.sum_congr rfl fun pos _ => ?_
    rw [Finset.sum_image fun t _ u _ h => List.append_cancel_left h]
    cases n.kid pos <;> rfl
  · intro pos hpos pos' hpos' hne
    rw [Function.onFun, Finset.disjoint_left]
    intro t ht ht'
    obtain ⟨u, -, rfl⟩ := Finset.mem_image.mp ht
    obtain ⟨u', -, hu'⟩ := Finset.mem_image.mp ht'
    have htake := congrArg (value ∘ List.take 6) hu'
    simp only [Function.comp_apply, take_stem, value_stem (lt_of_mem_members hpos),
      value_stem (lt_of_mem_members hpos')] at htake
    exact hne htake.symm

/-- **A sum over the nodes is a sum over strings**, if what a node adds depends on its table. -/
theorem sumAtDepth_eq {F : Table Bool Nhi → ℕ} (hf : ∀ c w, c.Wf w → f c = F c.get) (hn : n.Wf w)
    (d : ℕ) : n.sumAtDepth f d = ∑ t ∈ n.stems d, F (below n.get t) := by
  induction d generalizing n w with
  | zero => rw [MbNode.sumAtDepth, hf n w hn, MbNode.stems, Finset.sum_singleton, below_nil]
  | succ d ih =>
      rw [MbNode.sumAtDepth, sum_map_children hn.layout, sum_stems_succ]
      refine Finset.sum_congr rfl fun pos hpos => ?_
      obtain ⟨c, hc⟩ := exists_kid hn.layout hpos
      have hbelow : below n.get (ofBitVec (BitVec.ofNat 6 pos)) = c.get := by
        apply below_get (length_ofBitVec _)
        rw [value_stem (lt_of_mem_members hpos), hc]
      rw [hc, Option.elim_some, Option.elim_some, ih (hn.kids hc), ← hbelow]
      simp only [below_below]

theorem length_of_mem_stems {t : List Bool} (ht : t ∈ n.stems d) : t.length = 6 * d := by
  induction d generalizing n t with
  | zero => rw [Finset.mem_singleton.mp ht, List.length_nil]
  | succ d ih =>
      obtain ⟨pos, -, ht⟩ := Finset.mem_biUnion.mp ht
      obtain ⟨u, hu, rfl⟩ := Finset.mem_image.mp ht
      rcases hc : n.kid pos with _ | c
      · rw [hc] at hu
        exact absurd hu (Finset.notMem_empty u)
      · rw [hc] at hu
        rw [List.length_append, length_ofBitVec, ih hu]
        omega

/-- **There is a node where there is something to reach.** -/
theorem mem_stems_iff (hn : n.Wf w) (hfull : n.isEmpty = false) {t : List Bool} :
    t ∈ n.stems d ↔ t.length = 6 * d ∧ ∃ u, n.get (t ++ u) ≠ none := by
  induction d generalizing n w t with
  | zero =>
      rw [MbNode.stems, Finset.mem_singleton, Nat.mul_zero, List.length_eq_zero_iff]
      refine ⟨fun h => ⟨h, ?_⟩, And.left⟩
      rw [h]
      exact exists_get_ne_none hn hfull
  | succ d ih =>
      constructor
      · intro ht
        refine ⟨length_of_mem_stems ht, ?_⟩
        obtain ⟨pos, hpos, ht⟩ := Finset.mem_biUnion.mp ht
        obtain ⟨u, hu, rfl⟩ := Finset.mem_image.mp ht
        obtain ⟨c, hc⟩ := exists_kid hn.layout hpos
        rw [hc] at hu
        obtain ⟨-, v, hv⟩ := (ih (hn.kids hc) (hn.full hc)).mp hu
        refine ⟨v, ?_⟩
        rw [List.append_assoc, MbNode.get_append (length_ofBitVec _),
          value_stem (lt_of_mem_members hpos), hc]
        exact hv
      · intro h
        obtain ⟨hlen, u, hu⟩ := h
        have htake : (t.take 6).length = 6 := by
          rw [List.length_take]
          omega
        rw [← List.take_append_drop 6 t, List.append_assoc, MbNode.get_append htake] at hu
        rcases hc : n.kid (value (t.take 6)) with _ | c
        · rw [hc] at hu
          exact absurd rfl hu
        · rw [hc] at hu
          have hpos := mem_of_kid hc
          have hmem : t.drop 6 ∈ c.stems d := by
            refine (ih (hn.kids hc) (hn.full hc)).mpr ⟨?_, u, hu⟩
            rw [List.length_drop]
            omega
          have hstem : ofBitVec (BitVec.ofNat 6 (value (t.take 6))) = t.take 6 :=
            value_injective ((length_ofBitVec _).trans htake.symm)
              (value_stem (lt_of_mem_members hpos))
          refine Finset.mem_biUnion.mpr ⟨_, hpos, Finset.mem_image.mpr ⟨t.drop 6, ?_, ?_⟩⟩
          · rw [hc]
            exact hmem
          · rw [hstem, List.take_append_drop]

/-- The number of short strings that a table knows. -/
noncomputable def ruleCount (T : Table Bool Nhi) : ℕ := {s | s.length < 6 ∧ T s ≠ none}.ncard

theorem countChildren_internal (hn : n.Wf w) : countChildren n.internal = ruleCount n.get := by
  have himage : (members n.internal : Set ℕ) =
      inlPos '' {s | s.length < 6 ∧ n.get s ≠ none} := by
    ext pos
    rw [Finset.mem_coe, Set.mem_image]
    constructor
    · intro hpos
      obtain ⟨t, ht, rfl⟩ := exists_inlPos_eq (hn.internal hpos)
      have hlt : t.length < 6 := by omega
      exact ⟨t, ⟨hlt, (marks_internal hn.layout.rules_length t hlt).mp hpos⟩, rfl⟩
    · intro h
      obtain ⟨t, ⟨hlt, hget⟩, rfl⟩ := h
      exact (marks_internal hn.layout.rules_length t hlt).mpr hget
  rw [countChildren_eq_card, ← Set.ncard_coe_finset, himage,
    Set.ncard_image_of_injective _ inlPos_injective, ruleCount]

/-- The nodes at one depth. -/
theorem sumAtDepth_one (hn : n.Wf w) (d : ℕ) :
    n.sumAtDepth (fun _ => 1) d = (n.stems d).card := by
  rw [sumAtDepth_eq (F := fun _ => 1) (fun _ _ _ => rfl) hn, Finset.card_eq_sum_ones]

/-- The units at one depth: one for each node at the next, and those for the next hops. -/
theorem unitsAtDepth_eq_add (hn : n.Wf w) (d : ℕ) :
    n.unitsAtDepth d = n.sumAtDepth (fun _ => 1) (d + 1) +
      n.sumAtDepth (fun c => upRule (countChildren c.internal)) d := by
  rw [unitsAtDepth_eq_sumAtDepth, sumAtDepth_succ hn, ← sumAtDepth_add]
  rfl

theorem unitsAtDepth_eq (hn : n.Wf w) (d : ℕ) :
    n.unitsAtDepth d =
      (n.stems (d + 1)).card + ∑ t ∈ n.stems d, upRule (ruleCount (below n.get t)) := by
  rw [unitsAtDepth_eq_add hn, sumAtDepth_one hn,
    sumAtDepth_eq (f := fun c => upRule (countChildren c.internal))
      (F := fun T => upRule (ruleCount T)) (fun c w hc => by rw [countChildren_internal hc]) hn]

theorem unitsAtDepth_of_isEmpty (hn : n.Layout) (h : n.isEmpty) (d : ℕ) :
    n.unitsAtDepth d = 0 := by
  cases d with
  | zero => exact units_of_isEmpty h
  | succ d =>
      have hkids : n.children = [] := by
        rw [← List.length_eq_zero_iff, hn.children_length, (isEmpty_iff.mp h).2, Finset.card_empty]
      rw [MbNode.unitsAtDepth, hkids, List.map_nil, List.sum_nil]

/-- Below the root, the node need not be known to hold something. -/
theorem mem_stems_succ_iff (hn : n.Wf w) {t : List Bool} :
    t ∈ n.stems (d + 1) ↔ t.length = 6 * (d + 1) ∧ ∃ u, n.get (t ++ u) ≠ none := by
  cases hfull : n.isEmpty with
  | false => exact mem_stems_iff hn hfull
  | true =>
      rw [MbNode.stems, (isEmpty_iff.mp hfull).2, Finset.biUnion_empty, get_of_isEmpty hfull]
      simp

end Nodes

/-! ## The memory that a map needs -/

section Stored

variable {α : Type} [IpAddr α] [DecidableEq α]

/-- The strings of `k` bits with which stored prefixes start. -/
def Stored.stems (T : Stored α) (k : ℕ) : Finset (List Bool) :=
  (T.keys.filter (k ≤ ·.cidr)).image fun p => p.bits.take k

/-- The number of stored prefixes that start with `t` and end less than a stride after it. -/
def Stored.endings (T : Stored α) (t : List Bool) : ℕ :=
  (T.keys.filter fun p => t <+: p.bits ∧ p.cidr < t.length + 6).card

/-- The units that a map needs at one level. -/
def Stored.footprint (T : Stored α) (d : ℕ) : ℕ :=
  (T.stems (6 * (d + 1))).card + ∑ t ∈ T.stems (6 * d), upRule (T.endings t)

variable {T : Stored α}

theorem mem_stored_stems_iff {k : ℕ} {t : List Bool} :
    t ∈ T.stems k ↔ t.length = k ∧ ∃ u, T.table (t ++ u) ≠ none := by
  constructor
  · intro ht
    obtain ⟨p, hp, rfl⟩ := Finset.mem_image.mp ht
    obtain ⟨hmem, hk⟩ := Finset.mem_filter.mp hp
    refine ⟨?_, p.bits.drop k, ?_⟩
    · rw [List.length_take, p.length_bits, min_eq_left hk]
    · rw [List.take_append_drop]
      exact mem_iff_table.mp (Finmap.mem_keys.mp hmem)
  · intro h
    obtain ⟨rfl, u, hu⟩ := h
    obtain ⟨v, hv⟩ := Option.ne_none_iff_exists'.mp hu
    obtain ⟨p, hbits, hp⟩ := exists_prefix_of_table hv
    have hlen : t.length ≤ p.cidr := by
      rw [← p.length_bits, hbits, List.length_append]
      omega
    refine Finset.mem_image.mpr ⟨p, Finset.mem_filter.mpr ⟨?_, hlen⟩, ?_⟩
    · exact Finmap.mem_keys.mpr (Finmap.mem_of_lookup_eq_some hp)
    · rw [hbits, List.take_left]

theorem ruleCount_table (t : List Bool) : ruleCount (below T.table t) = T.endings t := by
  have himage : (t ++ ·) '' {u | u.length < 6 ∧ below T.table t u ≠ none} =
      ((T.keys.filter fun p => t <+: p.bits ∧ p.cidr < t.length + 6).image Prefix.bits :
        Set (List Bool)) := by
    ext s
    simp only [Set.mem_image, Set.mem_ofPred_eq, Finset.coe_image, Finset.mem_coe,
      Finset.mem_filter, below_apply]
    constructor
    · intro h
      obtain ⟨u, ⟨hlt, hu⟩, rfl⟩ := h
      obtain ⟨v, hv⟩ := Option.ne_none_iff_exists'.mp hu
      obtain ⟨p, hbits, hp⟩ := exists_prefix_of_table hv
      refine ⟨p, ⟨Finmap.mem_keys.mpr (Finmap.mem_of_lookup_eq_some hp), ?_, ?_⟩, hbits⟩
      · rw [hbits]
        exact List.prefix_append t u
      · rw [← p.length_bits, hbits, List.length_append]
        omega
    · intro h
      obtain ⟨p, ⟨hp, ⟨u, hu⟩, hlt⟩, rfl⟩ := h
      refine ⟨u, ⟨?_, ?_⟩, hu⟩
      · rw [← p.length_bits, ← hu, List.length_append] at hlt
        omega
      · rw [hu]
        exact mem_iff_table.mp (Finmap.mem_keys.mp hp)
  rw [ruleCount, ← Set.ncard_image_of_injective _ (List.append_right_injective t), himage,
    Set.ncard_coe_finset, Finset.card_image_of_injective _ Prefix.bits_injective, Stored.endings]

theorem stems_of_table_eq (h : T.table = fun _ => none) (k : ℕ) : T.stems k = ∅ := by
  rw [Finset.eq_empty_iff_forall_notMem]
  intro t ht
  obtain ⟨-, u, hu⟩ := mem_stored_stems_iff.mp ht
  rw [h] at hu
  exact hu rfl

theorem Mirrors.stems {st : MbNode × Mm} (h : Mirrors st T) (hfull : st.1.isEmpty = false)
    (d : ℕ) : st.1.stems d = T.stems (6 * d) := by
  ext t
  rw [mem_stems_iff h.wf hfull, mem_stored_stems_iff, h.get]

/-- **The units at one depth of a trie are those that its map needs.** -/
theorem Mirrors.unitsAtDepth {st : MbNode × Mm} (h : Mirrors st T) (d : ℕ) :
    st.1.unitsAtDepth d = T.footprint d := by
  cases hfull : st.1.isEmpty with
  | true =>
      have hnone := stems_of_table_eq (h.get.symm.trans (get_of_isEmpty hfull))
      rw [unitsAtDepth_of_isEmpty h.wf.layout hfull, Stored.footprint, hnone, hnone,
        Finset.card_empty, Finset.sum_empty, add_zero]
  | false =>
      rw [unitsAtDepth_eq h.wf, Stored.footprint, h.stems hfull, h.stems hfull, h.get]
      simp only [ruleCount_table]

theorem Booked.footprint {st : MbNode × Mm} {q : Prop} {lost : Multiset Block}
    (h : Booked st q lost) (hmir : Mirrors st T) : AccountedFor T.footprint st.2 := by
  refine h.sound.accountedFor fun l => ?_
  rw [h.live, unitsAt_add, unitsAt_of_units_eq_zero h.units, add_zero, ← hmir.unitsAtDepth,
    ← unitsAt_blocks hmir.wf 0 l, zero_add]

theorem exists_footprint_run {op : MemOp} (hop : (mmInit op).Succeeds) {ops : List (Op α)}
    (hops : (storedMachine α).Legal ∅ ops) :
    ∃ root m, ops.foldlM trieStep (.zero, mmInit op) = some (root, m) ∧
      AccountedFor ((storedMachine α).exec ∅ ops).footprint m := by
  obtain ⟨⟨root, m⟩, lost, hrun, hmir, -, hbook⟩ := exists_booked_run hop hops
  exact ⟨root, m, hrun, hbook.footprint hmir⟩

end Stored

/-- **The memory in use is a function of what is stored**: after every run of either engine, with
any allocator that answers the requests for at least one unit, the counters of each level show
what the map needs there, modulo `2 ^ 32`. -/
theorem runs_footprint {op : MemOp} (hop : (mmInit op).Succeeds) :
    (∀ ops, (storedMachine IpV4).Legal ∅ ops →
      ∃ root m, ops.foldlM bitmapStep (.zero, mmInit op) = some (root, m) ∧
        AccountedFor ((storedMachine IpV4).exec ∅ ops).footprint m) ∧
    (∀ ops, (storedMachine IpV6).Legal ∅ ops →
      ∃ root m, ops.foldlM bitmapv6Step (.zero, mmInit op) = some (root, m) ∧
        AccountedFor ((storedMachine IpV6).exec ∅ ops).footprint m) := by
  rw [bitmapStep_eq, bitmapv6Step_eq]
  exact ⟨fun _ hops => exists_footprint_run hop hops, fun _ hops => exists_footprint_run hop hops⟩

theorem runs_footprint_insert_delete :
    (∃ root m, tenOps.foldlM bitmapStep (.zero, mmInit simple) = some (root, m) ∧
      AccountedFor ((storedMachine IpV4).exec ∅ tenOps).footprint m) ∧
    (∃ root m, docOps.foldlM bitmapv6Step (.zero, mmInit simple) = some (root, m) ∧
      AccountedFor ((storedMachine IpV6).exec ∅ docOps).footprint m) :=
  ⟨(runs_footprint succeeds_mmInit_simple).1 _ legal_tenOps,
    (runs_footprint succeeds_mmInit_simple).2 _ legal_docOps⟩

end TreeBitmap
