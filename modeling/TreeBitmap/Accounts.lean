import TreeBitmap.Refinement
import Mathlib.Algebra.BigOperators.Ring.Finset

/-!
# The books of a run

What is outstanding after a run is the blocks of the trie, together with blocks of
no units that a pruned node has left behind.  Those weigh nothing, so that the
counters of the memory manager are right as far as 32 bits reach.

## Main definitions

* `Booked st q lost` — the outstanding blocks; `q` says that none has got lost.
* `exists_booked_run` — the books after any run.
* `MbNode.unitsAtDepth` — the units a trie needs at one depth.
* `Accounted root m` — every call and every counter is as it has to be.
* `runs_accounted` — **every run is accounted for**.
-/

namespace TreeBitmap

open Ranked Ledger

/-! ## The blocks outstanding after a run -/

section Run

variable {α : Type} [IpAddr α] [DecidableEq α]

/-- Outstanding are the blocks of the trie and blocks of no units.  Where every
request is answered, there are none of the latter just if `q` holds. -/
structure Booked (st : MbNode × Mm) (q : Prop) (lost : Multiset Block) : Prop where
  sound : st.2.Sound
  live : st.2.live = st.1.blocks 0 + lost
  units : ∀ b ∈ lost, b.units = 0
  lost_iff : st.2.Grants → (lost = 0 ↔ q)

theorem booked_zero (op : MemOp) : Booked (.zero, mmInit op) True 0 where
  sound := sound_mmInit op
  live := by rw [live_mmInit, blocks_zero, add_zero]
  units := by simp
  lost_iff := by simp

theorem Booked.step {st st' : MbNode × Mm} {T : Stored α} {op : Op α} {q : Prop}
    {lost more : Multiset Block} (h : Booked st q lost) (hex : Exchanged T op st st' more) :
    Booked st' (q ∧ ¬ Prunes T op) (lost + more) := by
  have hlive : mmBook.live st.2 = lost + st.1.blocks 0 := h.live.trans (add_comm _ _)
  obtain ⟨hsound', hlive'⟩ := hex.trades lost h.sound hlive
  have hlive'' : st'.2.live = st'.1.blocks 0 + (lost + more) := by
    rw [add_left_comm]
    exact hlive'
  refine ⟨hsound', hlive'', ?_, ?_⟩
  · intro b hb
    rcases Multiset.mem_add.mp hb with hb | hb
    · exact h.units b hb
    · exact hex.units b hb
  · intro hgrants'
    have hgrants : st.2.Grants := hgrants'.of_op_eq hex.op.symm
    have hmore : more = 0 ↔ ¬ Prunes T op := by
      constructor
      · intro hzero hprunes
        exact hex.pruned hgrants hprunes hzero
      · exact hex.kept
    rw [add_eq_zero, h.lost_iff hgrants, hmore]

/-- **The books after any run** from the zero root. -/
theorem exists_booked_run {op : MemOp} (hop : (mmInit op).Succeeds) {ops : List (Op α)}
    (hops : (storedMachine α).Legal ∅ ops) :
    ∃ st lost, ops.foldlM trieStep (.zero, mmInit op) = some st ∧
      Mirrors st ((storedMachine α).exec ∅ ops) ∧ st.2.op = op ∧
      Booked st ((storedMachine α).Along (fun T o => ¬ Prunes T o) ∅ ops) lost := by
  let M := (storedMachine α).watched fun T o => ¬ Prunes T o
  let R : MbNode × Mm → Stored α × Prop → Prop := fun st t =>
    Mirrors st t.1 ∧ st.2.op = op ∧ ∃ lost, Booked st t.2 lost
  have hstep : ∀ st t o, R st t → M.legal t o →
      ∃ st', trieStep st o = some st' ∧ R st' (M.step t o) := by
    intro st t o hR hlegal
    obtain ⟨hmir, hst, lost, hbook⟩ := hR
    obtain ⟨st', more, hstep, hmir', hex⟩ := trieStep_spec hmir _ hlegal
    exact ⟨st', hstep, hmir', hex.op.trans hst, _, hbook.step hex⟩
  have hstart : R (.zero, mmInit op) (∅, True) := ⟨mirrors_zero hop, rfl, 0, booked_zero op⟩
  obtain ⟨st, hrun, hmir, hst, lost, hbook⟩ :=
    Run.Machine.refines hstep hstart (Run.Machine.watched_legal hops)
  simp only [M, Run.Machine.exec_watched, true_and] at hmir hbook
  exact ⟨st, lost, hrun, hmir, hst, hbook⟩

end Run

/-! ## The units at one depth -/

/-- The units that the nodes at one depth below `n` need. -/
def MbNode.unitsAtDepth : ℕ → MbNode → ℕ
  | 0, n => n.units
  | d + 1, n => (n.children.map (MbNode.unitsAtDepth d)).sum

section Units

variable {n : MbNode} {w : ℕ}

theorem unitsAt_own (hn : n.Layout) (level l : ℕ) :
    unitsAt (n.own level) l = if level = l then n.units else 0 := by
  rcases hp : n.childPtr with _ | p
  · have hunits : n.units = 0 := by
      rw [MbNode.units, (hn.count_of_null hp).1, (hn.count_of_null hp).2]
      rfl
    rw [MbNode.own, MbNode.base, hp, hunits, ite_self]
    rfl
  · rw [MbNode.own, MbNode.base, hp]
    exact unitsAt_singleton _ l

theorem unitsAt_sum (s : List (Multiset Block)) (l : ℕ) :
    unitsAt s.sum l = (s.map fun b => unitsAt b l).sum := by
  induction s with
  | nil => rfl
  | cons b s ih => rw [List.sum_cons, unitsAt_add, ih, List.map_cons, List.sum_cons]

theorem unitsAt_inner {level l : ℕ} {f : MbNode → ℕ}
    (h : ∀ c ∈ n.children, unitsAt (c.blocks (level + 1)) l = f c) :
    unitsAt (n.inner MbNode.own level) l = (n.children.map f).sum := by
  rw [MbNode.inner, unitsAt_sum, List.map_map]
  exact congrArg List.sum (List.map_congr_left h)

/-- Nothing of a trie lies above its root. -/
theorem unitsAt_blocks_of_lt (hn : n.Wf w) {level l : ℕ} (hl : l < level) :
    unitsAt (n.blocks level) l = 0 := by
  induction n using MbNode.induction generalizing w level with
  | h n ih =>
      have hinner : unitsAt (n.inner MbNode.own level) l = (n.children.map fun _ => 0).sum :=
        unitsAt_inner fun c hc => ih c hc (hn.kids_of_mem hc) (by omega)
      rw [blocks_eq, unitsAt_add, unitsAt_own hn.layout, if_neg (by omega), hinner]
      simp

/-- **The blocks of one level are those of the nodes at that depth.** -/
theorem unitsAt_blocks (hn : n.Wf w) (level d : ℕ) :
    unitsAt (n.blocks level) (level + d) = n.unitsAtDepth d := by
  induction d generalizing n w level with
  | zero =>
      have hinner : unitsAt (n.inner MbNode.own level) level = (n.children.map fun _ => 0).sum :=
        unitsAt_inner fun c hc => unitsAt_blocks_of_lt (hn.kids_of_mem hc) (by omega)
      rw [blocks_eq, add_zero, unitsAt_add, unitsAt_own hn.layout, if_pos rfl, hinner]
      simp [MbNode.unitsAtDepth]
  | succ d ih =>
      have hinner : unitsAt (n.inner MbNode.own level) (level + (d + 1)) =
          (n.children.map (MbNode.unitsAtDepth d)).sum := by
        apply unitsAt_inner
        intro c hc
        rw [← ih (hn.kids_of_mem hc) (level + 1)]
        congr 1
        omega
      rw [blocks_eq, unitsAt_add, unitsAt_own hn.layout, if_neg (by omega), hinner, zero_add,
        MbNode.unitsAtDepth]

theorem unitsAt_of_units_eq_zero {s : Multiset Block} (hs : ∀ b ∈ s, b.units = 0) (l : ℕ) :
    unitsAt s l = 0 := by
  apply Multiset.sum_eq_zero
  intro u hu
  obtain ⟨b, hb, rfl⟩ := Multiset.mem_map.mp hu
  exact hs b (Multiset.mem_filter.mp hb).1

end Units

/-! ## Every run is accounted for -/

/-- The calls and the counters of a memory manager are those of the trie: a block that
was given back had been handed out for that count at that level and not been given
back since, and the counters show the units of the nodes, modulo `2 ^ 32`. -/
structure Accounted (root : MbNode) (m : Mm) : Prop where
  disciplined : ∀ later nodeNum level p earlier,
    m.calls = later ++ .dealloc nodeNum level p :: earlier →
      ⟨p, nodeNum, level⟩ ∈ Ledger.live (earlier.filterMap MmCall.event)
  lnode : ∀ l : Fin MAX_LEVEL, m.ms.lnode l = BitVec.ofNat 32 (root.unitsAtDepth l)
  lmem : ∀ l : Fin MAX_LEVEL, m.ms.lmem l = BitVec.ofNat 32 (root.unitsAtDepth l * NODE_SIZE)
  node : m.ms.node = BitVec.ofNat 32 (∑ l : Fin MAX_LEVEL, root.unitsAtDepth l)
  mem : m.ms.mem = BitVec.ofNat 32 (∑ l : Fin MAX_LEVEL, root.unitsAtDepth l * NODE_SIZE)

/-- Every entry of a disciplined trace was made under discipline. -/
theorem disciplined_call {m : Mm} (h : Disciplined m.events) {later earlier : List MmCall}
    {nodeNum level : ℕ} {p : Ptr}
    (hcalls : m.calls = later ++ .dealloc nodeNum level p :: earlier) :
    ⟨p, nodeNum, level⟩ ∈ Ledger.live (earlier.filterMap MmCall.event) := by
  rw [Mm.events, hcalls, List.filterMap_append] at h
  exact h.of_append.1

theorem Booked.accounted {α : Type} [IpAddr α] [DecidableEq α] {st : MbNode × Mm} {T : Stored α}
    {q : Prop} {lost : Multiset Block} (h : Booked st q lost) (hmir : Mirrors st T) :
    Accounted st.1 st.2 := by
  have hunits : ∀ l, unitsAt st.2.live l = st.1.unitsAtDepth l := by
    intro l
    rw [h.live, unitsAt_add, unitsAt_of_units_eq_zero h.units, add_zero,
      ← unitsAt_blocks hmir.wf 0 l, zero_add]
  have hcounts := h.sound.counts
  have hlnode : ∀ l : Fin MAX_LEVEL, st.2.ms.lnode l = BitVec.ofNat 32 (st.1.unitsAtDepth l) := by
    intro l
    rw [hcounts.lnode, hunits]
  have hlmem : ∀ l : Fin MAX_LEVEL,
      st.2.ms.lmem l = BitVec.ofNat 32 (st.1.unitsAtDepth l * NODE_SIZE) := by
    intro l
    rw [hcounts.lmem, hlnode, BitVec.ofNat_mul]
  have hsum : ∀ f : Fin MAX_LEVEL → ℕ,
      ∑ l, BitVec.ofNat 32 (f l) = BitVec.ofNat 32 (∑ l, f l) := by
    intro f
    simp only [← BitVec.natCast_eq_ofNat, Nat.cast_sum]
  refine ⟨fun _ _ _ _ _ => disciplined_call h.sound.disciplined, hlnode, hlmem, ?_, ?_⟩
  · rw [hcounts.node, ← hsum]
    exact Finset.sum_congr rfl fun l _ => hlnode l
  · rw [hcounts.mem, ← hsum]
    exact Finset.sum_congr rfl fun l _ => hlmem l

theorem exists_accounted_run {α : Type} [IpAddr α] [DecidableEq α] {op : MemOp}
    (hop : (mmInit op).Succeeds) {ops : List (Op α)} (hops : (storedMachine α).Legal ∅ ops) :
    ∃ root m, ops.foldlM trieStep (.zero, mmInit op) = some (root, m) ∧ Accounted root m := by
  obtain ⟨⟨root, m⟩, lost, hrun, hmir, -, hbook⟩ := exists_booked_run hop hops
  exact ⟨root, m, hrun, hbook.accounted hmir⟩

/-- **Every run of either engine is accounted for**, with any allocator that answers
the requests for at least one unit. -/
theorem runs_accounted {op : MemOp} (hop : (mmInit op).Succeeds) :
    (∀ ops, (storedMachine IpV4).Legal ∅ ops →
      ∃ root m, ops.foldlM bitmapStep (.zero, mmInit op) = some (root, m) ∧ Accounted root m) ∧
    (∀ ops, (storedMachine IpV6).Legal ∅ ops →
      ∃ root m, ops.foldlM bitmapv6Step (.zero, mmInit op) = some (root, m) ∧
        Accounted root m) := by
  rw [bitmapStep_eq, bitmapv6Step_eq]
  exact ⟨fun _ hops => exists_accounted_run hop hops, fun _ hops => exists_accounted_run hop hops⟩

theorem runs_accounted_insert_delete :
    (∃ root m, tenOps.foldlM bitmapStep (.zero, mmInit simple) = some (root, m) ∧
      Accounted root m) ∧
    (∃ root m, docOps.foldlM bitmapv6Step (.zero, mmInit simple) = some (root, m) ∧
      Accounted root m) :=
  ⟨(runs_accounted succeeds_mmInit_simple).1 _ legal_tenOps,
    (runs_accounted succeeds_mmInit_simple).2 _ legal_docOps⟩

/-! ## The counters wrap

The counters have 32 bits, and there are that many addresses. -/

/-- A third of a unit for each next hop, at least. -/
theorem card_nhis_le {n : MbNode} {w k : ℕ} (hn : n.Wf w) (hk : w / 6 < k) (level : ℕ) :
    (n.nhis level).card ≤ 3 * ∑ d ∈ Finset.range k, n.unitsAtDepth d := by
  induction k generalizing n w level with
  | zero => omega
  | succ k ih =>
      have hown : (n.ownNhis level).card ≤ 3 * n.unitsAtDepth 0 := by
        have hcard : (n.ownNhis level).card = countChildren n.internal := by
          rw [← hn.layout.countRules]
          rfl
        rw [hcard, MbNode.unitsAtDepth, MbNode.units, upRule, NODE_SIZE]
        omega
      have hinner : (n.inner MbNode.ownNhis level).card ≤
          3 * ∑ d ∈ Finset.range k, n.unitsAtDepth (d + 1) := by
        have hkids : ∀ c ∈ n.children,
            (c.nhis (level + 1)).card ≤ 3 * ∑ d ∈ Finset.range k, c.unitsAtDepth d := by
          intro c hc
          obtain ⟨pos, -, hpos⟩ := exists_lookup_eq hn.layout.children_length hc
          have hw := hn.le_of_kid hpos
          exact ih (hn.kids_of_mem hc) (by omega) (level + 1)
        simp only [MbNode.unitsAtDepth, MbNode.inner]
        generalize n.children = l at hkids
        induction l with
        | nil => simp
        | cons c l ihl =>
            have hhead := hkids c List.mem_cons_self
            have htail := ihl fun c' hc' => hkids c' (List.mem_cons_of_mem c hc')
            simp only [List.map_cons, List.sum_cons, Multiset.card_add, Finset.sum_add_distrib]
            rw [MbNode.nhis] at hhead
            omega
      rw [nhis_eq, Multiset.card_add, Finset.sum_range_succ']
      omega

/-- Different prefixes are all stored. -/
theorem card_values_exec_insert {α : Type} [IpAddr α] [DecidableEq α] {ps : List (Prefix α)}
    (hps : ps.Nodup) (nhi : Nhi) {T : Stored α} (hT : ∀ p ∈ ps, p ∉ T) :
    (Stored.values ((storedMachine α).exec T (ps.map fun p => .insert p nhi))).card =
      T.values.card + ps.length := by
  induction ps generalizing T with
  | nil => rfl
  | cons p ps ih =>
      obtain ⟨hp, hps⟩ := List.nodup_cons.mp hps
      have hT' : ∀ q ∈ ps, q ∉ T.insert p nhi := by
        intro q hq hmem
        rcases Finmap.mem_insert.mp hmem with hqp | hqT
        · exact hp (hqp ▸ hq)
        · exact hT q (List.mem_cons_of_mem p hq) hqT
      rw [List.map_cons, Run.Machine.exec_cons]
      refine (ih hps hT').trans ?_
      rw [values_insert_of_notMem (hT p List.mem_cons_self), Multiset.card_cons, List.length_cons]
      omega

theorem legal_insert {α : Type} [IpAddr α] [DecidableEq α] (ps : List (Prefix α)) (nhi : Nhi)
    (T : Stored α) : (storedMachine α).Legal T (ps.map fun p => .insert p nhi) := by
  induction ps generalizing T with
  | nil => trivial
  | cons p ps ih => exact ⟨trivial, ih _⟩

/-- The prefix of one address. -/
def slash32 (a : IpV4) : Prefix IpV4 where
  ip := a
  cidr := LENGTH
  cidr_le := le_refl _
  host := List.drop_eq_nil_of_le (IpAddr.length_bits a).le

/-- There are as many prefixes as addresses. -/
theorem exists_nodup_prefixes {k : ℕ} (hk : k ≤ 2 ^ 32) :
    ∃ ps : List (Prefix IpV4), ps.Nodup ∧ ps.length = k := by
  refine ⟨(List.range k).map fun i => slash32 (BitVec.ofNat 32 i), ?_, by simp⟩
  refine List.Nodup.map_on ?_ List.nodup_range
  intro i hi j hj hij
  have hi' := List.mem_range.mp hi
  have hj' := List.mem_range.mp hj
  have hip : (BitVec.ofNat 32 i).toNat = (BitVec.ofNat 32 j).toNat :=
    congrArg (fun p : Prefix IpV4 => p.ip.toNat) hij
  rw [BitVec.toNat_ofNat, BitVec.toNat_ofNat] at hip
  omega

/-- With `2 ^ 29` addresses, the counter of the bytes is not the number of the bytes. -/
theorem mem_ne_of_two_pow_29 :
    ¬ ∀ ops, (storedMachine IpV4).Legal ∅ ops → ∀ root m,
      ops.foldlM bitmapStep (.zero, mmInit simple) = some (root, m) →
        m.ms.mem.toNat = ∑ l : Fin MAX_LEVEL, root.unitsAtDepth l * NODE_SIZE := by
  intro h
  obtain ⟨ps, hps, hlen⟩ := exists_nodup_prefixes (k := 2 ^ 29) (by norm_num)
  have hlegal := legal_insert ps 1 (∅ : Stored IpV4)
  obtain ⟨⟨root, m⟩, hrun, hmir⟩ := exists_trieStep_run succeeds_mmInit_simple hlegal
  have hcard : (root.nhis 0).card = 2 ^ 29 := by
    have hvalues := card_values_exec_insert hps 1 (T := ∅) fun _ _ => Finmap.notMem_empty
    rw [← hmir.nhis, hlen] at hvalues
    exact hvalues.trans (Nat.zero_add _)
  have hwf : root.Wf (IpAddr.LENGTH IpV4) := hmir.wf
  have hle := card_nhis_le (k := MAX_LEVEL) hwf (by decide) 0
  have hmem := h _ hlegal root m (bitmapStep_eq ▸ hrun)
  have hlt := m.ms.mem.isLt
  rw [Finset.sum_range, hcard] at hle
  rw [← Finset.sum_mul, NODE_SIZE] at hmem
  omega

end TreeBitmap
