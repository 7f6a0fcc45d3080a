import TreeBitmap.Accounts
import TreeBitmap.Destroy

/-!
# What gets lost

Two functions lose memory.  When a delete empties a node, `reduce_rule` gives the node
a new block of no units before `update_nodes` cuts the node out of its parent, and
nobody holds the block any more.  And `destroy_subtrie` counts the children of a node
after it has cleared their bitmap, so that a block goes back with too small a size.

Both happen on some runs only, and this module says on which.

## Main definitions

* `MbNode.Reaches` — the nodes of a trie.
* `NoneLost`, `LeavesCompany` — every outstanding block is held by a node; the deletes
  under which that stays so.
* `noneLost_iff_leavesCompany` — **a block is lost just when a delete empties a node**.
* `Undoes` — a destroyed trie has given everything back.
* `destroyTrie_undoes_iff` — **it has, just if no prefix is stored below the root**.
-/

namespace TreeBitmap

open BitString LongestMatch Ranked Ledger

/-! ## The nodes of a trie -/

/-- The second node is the first or lies below it. -/
inductive MbNode.Reaches : MbNode → MbNode → Prop
  | refl (n : MbNode) : MbNode.Reaches n n
  | child {n c d : MbNode} (hc : c ∈ n.children) (h : MbNode.Reaches c d) : MbNode.Reaches n d

/-- What a trie collects, one of its nodes contributes. -/
theorem exists_reaches_of_mem_collect {β : Type} {f : ℕ → MbNode → Multiset β} {n : MbNode}
    {level : ℕ} {x : β} (hx : x ∈ n.collect f level) : ∃ d l, n.Reaches d ∧ x ∈ f l d := by
  induction n using MbNode.induction generalizing level with
  | h n ih =>
      rw [collect_eq, Multiset.mem_add] at hx
      rcases hx with hx | hx
      · exact ⟨n, level, .refl n, hx⟩
      · obtain ⟨s, hs, hxs⟩ : ∃ s ∈ n.children.map (MbNode.collect f (level + 1)), x ∈ s := by
          generalize n.children.map (MbNode.collect f (level + 1)) = l at hx
          induction l with
          | nil => simp at hx
          | cons s l ihl =>
              rw [List.sum_cons, Multiset.mem_add] at hx
              rcases hx with hx | hx
              · exact ⟨s, List.mem_cons_self, hx⟩
              · obtain ⟨s', hs', hxs'⟩ := ihl hx
                exact ⟨s', List.mem_cons_of_mem s hs', hxs'⟩
        obtain ⟨c, hc, rfl⟩ := List.mem_map.mp hs
        obtain ⟨d, l, hd, hxd⟩ := ih c hc hxs
        exact ⟨d, l, .child hc hd, hxd⟩

theorem exists_reaches_of_mem_blocks {n : MbNode} {level : ℕ} {b : Block}
    (hb : b ∈ n.blocks level) : ∃ d, n.Reaches d ∧ d.base = some b.base := by
  obtain ⟨d, l, hd, hbd⟩ := exists_reaches_of_mem_collect hb
  refine ⟨d, hd, ?_⟩
  rw [MbNode.own, granted] at hbd
  rcases hbase : d.base with _ | p
  · rw [hbase] at hbd
    simp at hbd
  · rw [hbase] at hbd
    rw [Multiset.mem_singleton.mp hbd]

theorem exists_mem_blocks_of_reaches {n d : MbNode} (h : n.Reaches d) {p : Ptr}
    (hp : d.base = some p) (level : ℕ) : ∃ b ∈ n.blocks level, b.base = p := by
  induction h generalizing level with
  | refl n =>
      refine ⟨⟨p, n.units, level⟩, ?_, rfl⟩
      rw [blocks_eq, MbNode.own, hp]
      exact Multiset.mem_add.mpr (.inl (Multiset.mem_singleton_self _))
  | child hc _ ih =>
      obtain ⟨b, hb, hbase⟩ := ih hp (level + 1)
      refine ⟨b, ?_, hbase⟩
      rw [blocks_eq]
      refine Multiset.mem_add.mpr (.inr ?_)
      exact Multiset.mem_of_le (List.single_le_sum (by simp) _ (List.mem_map_of_mem hc)) hb

/-! ## Updates -/

section Updates

variable {α : Type} [IpAddr α] [DecidableEq α]

/-- Every outstanding block belongs to a node of the trie, so that a trie without
prefixes has at most the block of its root. -/
structure NoneLost (T : Stored α) (root : MbNode) (m : Mm) : Prop where
  owned : ∀ b ∈ m.live, ∃ node, root.Reaches node ∧ node.base = some b.base
  last : T = ∅ → m.live.card ≤ 1

/-- A delete that leaves another prefix in the node of the deleted one or below it. -/
def LeavesCompany (T : Stored α) : Op α → Prop
  | .insert _ _ => True
  | .delete p _ => p.cidr < 6 ∨ ∃ q ∈ T, q ≠ p ∧ p.cidr / 6 * 6 ≤ q.cidr ∧
      (IpAddr.bits q.ip).take (p.cidr / 6 * 6) = (IpAddr.bits p.ip).take (p.cidr / 6 * 6)

theorem leavesCompany_iff {T : Stored α} {op : Op α} : LeavesCompany T op ↔ ¬ Prunes T op := by
  cases op with
  | insert p nhi => simp [LeavesCompany, Prunes]
  | delete p destroyNhi =>
      have hk : p.cidr / 6 * 6 ≤ p.cidr := Nat.div_mul_le_self _ _
      rw [LeavesCompany, Prunes, Solitary, p.length_bits]
      constructor
      · intro h hsol
        obtain ⟨hle, hall⟩ := hsol
        rcases h with hlt | ⟨q, hq, hne, hcidr, htake⟩
        · omega
        · refine hne (Prefix.bits_injective (hall q.bits ?_ (mem_iff_table.mp hq)))
          exact (take_bits_prefix_iff hk).mpr ⟨hcidr, htake⟩
      · intro h
        by_contra hnone
        push Not at hnone
        obtain ⟨hle, hall⟩ := hnone
        refine h ⟨hle, fun u hu hT => ?_⟩
        obtain ⟨v, hv⟩ := Option.ne_none_iff_exists'.mp hT
        obtain ⟨q, rfl, hq⟩ := exists_prefix_of_table hv
        by_contra hne
        obtain ⟨hcidr, htake⟩ := (take_bits_prefix_iff hk).mp hu
        exact hall q (Finmap.mem_of_lookup_eq_some hq) (fun h => hne (by rw [h])) hcidr htake

/-- A block that got lost has no node. -/
theorem Booked.noneLost_iff {st : MbNode × Mm} {T : Stored α} {q : Prop} {lost : Multiset Block}
    (h : Booked st q lost) (hmir : Mirrors st T) : NoneLost T st.1 st.2 ↔ lost = 0 := by
  constructor
  · intro hnone
    by_contra hlost
    obtain ⟨b, hb⟩ := Multiset.exists_mem_of_ne_zero hlost
    have hlive : b ∈ st.2.live := h.live ▸ Multiset.mem_add.mpr (.inr hb)
    obtain ⟨node, hreach, hbase⟩ := hnone.owned b hlive
    obtain ⟨b', hb', hbb'⟩ := exists_mem_blocks_of_reaches hreach hbase 0
    have hnodup := h.sound.nodup
    rw [h.live, Multiset.map_add, Multiset.nodup_add] at hnodup
    have hmem := Multiset.mem_map_of_mem Block.base hb
    have hmem' := Multiset.mem_map_of_mem Block.base hb'
    rw [hbb'] at hmem'
    exact Multiset.disjoint_left.mp hnodup.2.2 hmem' hmem
  · intro hlost
    have hlive : st.2.live = st.1.blocks 0 := by rw [h.live, hlost, add_zero]
    refine ⟨fun b hb => exists_reaches_of_mem_blocks (hlive ▸ hb), fun hT => ?_⟩
    have hempty : st.1.isEmpty := by
      by_contra hne
      rw [Bool.not_eq_true] at hne
      obtain ⟨s, hs⟩ := exists_get_ne_none hmir.wf hne
      rw [hmir.get, hT, table_empty] at hs
      exact hs rfl
    rw [hlive, blocks_of_isEmpty hmir.wf.layout hempty, MbNode.own, granted]
    cases st.1.base <;> simp

theorem exists_run_noneLost_iff {ops : List (Op α)} (hops : (storedMachine α).Legal ∅ ops) :
    ∃ root m, ops.foldlM trieStep (.zero, mmInit simple) = some (root, m) ∧
      (NoneLost ((storedMachine α).exec ∅ ops) root m ↔
        (storedMachine α).Along LeavesCompany ∅ ops) := by
  obtain ⟨⟨root, m⟩, lost, hrun, hmir, hop, hbook⟩ :=
    exists_booked_run succeeds_mmInit_simple hops
  have hgrants : m.Grants := grants_mmInit_simple.of_op_eq hop
  have hcompany : (LeavesCompany : Stored α → Op α → Prop) = fun T o => ¬ Prunes T o := by
    funext T o
    exact propext leavesCompany_iff
  refine ⟨root, m, hrun, (hbook.noneLost_iff hmir).trans ?_⟩
  rw [hcompany]
  exact hbook.lost_iff hgrants

end Updates

/-- **A block is lost just when a delete empties a node** other than the root. -/
theorem noneLost_iff_leavesCompany {ops : List (Op IpV4)} {opsv6 : List (Op IpV6)}
    (hops : (storedMachine IpV4).Legal ∅ ops) (hopsv6 : (storedMachine IpV6).Legal ∅ opsv6) :
    (∃ root m, ops.foldlM bitmapStep (.zero, mmInit simple) = some (root, m) ∧
      (NoneLost ((storedMachine IpV4).exec ∅ ops) root m ↔
        (storedMachine IpV4).Along LeavesCompany ∅ ops)) ∧
    (∃ root m, opsv6.foldlM bitmapv6Step (.zero, mmInit simple) = some (root, m) ∧
      (NoneLost ((storedMachine IpV6).exec ∅ opsv6) root m ↔
        (storedMachine IpV6).Along LeavesCompany ∅ opsv6)) := by
  rw [bitmapStep_eq, bitmapv6Step_eq]
  exact ⟨exists_run_noneLost_iff hops, exists_run_noneLost_iff hopsv6⟩

theorem noneLost_iff_leavesCompany_insert :
    (∃ root m, tenOps.foldlM bitmapStep (.zero, mmInit simple) = some (root, m) ∧
      (NoneLost ((storedMachine IpV4).exec ∅ tenOps) root m ↔
        (storedMachine IpV4).Along LeavesCompany ∅ tenOps)) ∧
    (∃ root m, docOps.foldlM bitmapv6Step (.zero, mmInit simple) = some (root, m) ∧
      (NoneLost ((storedMachine IpV6).exec ∅ docOps) root m ↔
        (storedMachine IpV6).Along LeavesCompany ∅ docOps)) :=
  noneLost_iff_leavesCompany legal_tenOps legal_docOps

/-- Insert and delete `10.0.0.0/8`: nothing is stored, and a block is outstanding that
no node holds. -/
theorem not_noneLost_tenSlash8 :
    ¬ ∀ ops, (storedMachine IpV4).Legal ∅ ops → ∀ root m,
      ops.foldlM bitmapStep (.zero, mmInit simple) = some (root, m) →
        NoneLost ((storedMachine IpV4).exec ∅ ops) root m := by
  intro h
  have hlegal : (storedMachine IpV4).Legal ∅ [Op.insert tenSlash8 1, .delete tenSlash8 false] :=
    ⟨trivial, Finmap.mem_insert.mpr (.inl rfl), trivial⟩
  obtain ⟨root, m, hrun, hiff⟩ := exists_run_noneLost_iff hlegal
  obtain ⟨-, hcompany, -⟩ := hiff.mp (h _ hlegal root m (bitmapStep_eq ▸ hrun))
  rcases hcompany with hlt | ⟨q, hq, hne, -⟩
  · revert hlt
    decide
  · rcases Finmap.mem_insert.mp hq with hqp | hq
    · exact hne hqp
    · exact Finmap.notMem_empty hq

/-! ## Destroy -/

/-- The call has undone all allocation: it gave back the block of every node, each
once and as it was handed out, and every counter is at zero. -/
structure Undoes (root : MbNode) (m m' : Mm) : Prop where
  handedOut : root.blocks 0 ≤ m.live
  deallocs : ∃ log, m'.calls = log ++ m.calls ∧
    (log : Multiset MmCall) = (root.blocks 0).map Block.dealloc
  node : m'.ms.node = 0
  mem : m'.ms.mem = 0
  lnode : ∀ l, m'.ms.lnode l = 0
  lmem : ∀ l, m'.ms.lmem l = 0

theorem dealloc_injective : Function.Injective Block.dealloc := by
  intro b b' h
  cases b
  cases b'
  simp_all [Block.dealloc]

/-- Blocks of no units leave the counters at zero. -/
theorem MemStat.Counts.eq_zero {ms : MemStat} {s : Multiset Block} (h : ms.Counts s)
    (hs : ∀ b ∈ s, b.units = 0) :
    ms.node = 0 ∧ ms.mem = 0 ∧ (∀ l, ms.lnode l = 0) ∧ ∀ l, ms.lmem l = 0 := by
  have hlnode : ∀ l, ms.lnode l = 0 := by
    intro l
    rw [h.lnode, unitsAt_of_units_eq_zero hs]
    rfl
  have hlmem : ∀ l, ms.lmem l = 0 := by
    intro l
    rw [h.lmem, hlnode, zero_mul]
  refine ⟨?_, ?_, hlnode, hlmem⟩
  · rw [h.node]
    exact Finset.sum_eq_zero fun l _ => hlnode l
  · rw [h.mem]
    exact Finset.sum_eq_zero fun l _ => hlmem l

section Destroy

variable {α : Type} [IpAddr α] [DecidableEq α]

/-- The root has children just if a prefix is stored that does not fit into it. -/
theorem Mirrors.members_external {st : MbNode × Mm} {T : Stored α} (h : Mirrors st T) :
    members st.1.external = ∅ ↔ ∀ p ∈ T, p.cidr < 6 := by
  have hl := h.wf.layout
  constructor
  · intro hext p hp
    by_contra hlong
    have hget : st.1.get p.bits ≠ none := by
      rw [h.get]
      exact mem_iff_table.mp hp
    rw [MbNode.get, if_neg (by rw [p.length_bits]; omega), MbNode.kid, hext,
      lookup_of_notMem (Finset.notMem_empty _)] at hget
    exact hget rfl
  · intro hshort
    rw [Finset.eq_empty_iff_forall_notMem]
    intro pos hpos
    obtain ⟨c, hc⟩ := exists_kid hl hpos
    obtain ⟨s, hs⟩ := exists_get_ne_none (h.wf.kids hc) (h.wf.full hc)
    obtain ⟨t, ht, rfl⟩ := exists_value_eq (v := pos) (k := 6) (lt_of_mem_members hpos)
    have hget : st.1.get (t ++ s) ≠ none := by
      rwa [MbNode.get_append ht, hc]
    rw [h.get] at hget
    obtain ⟨v, hv⟩ := Option.ne_none_iff_exists'.mp hget
    obtain ⟨p, hbits, hp⟩ := exists_prefix_of_table hv
    have hlen := congrArg List.length hbits
    rw [p.length_bits, List.length_append, ht] at hlen
    have := hshort p (Finmap.mem_of_lookup_eq_some hp)
    omega

theorem exists_run_undoes_iff {op : MemOp} (hop : (mmInit op).Succeeds) {ops : List (Op α)}
    (hops : (storedMachine α).Legal ∅ ops) (d : Bool) :
    ∃ root m m' calls, ops.foldlM trieStep (.zero, mmInit op) = some (root, m) ∧
      destroySubtrie m root d 0 = some (m', calls) ∧
      (Undoes root m m' ↔ ∀ p ∈ (storedMachine α).exec ∅ ops, p.cidr < 6) := by
  obtain ⟨⟨root, m⟩, lost, hrun, hmir, -, hbook⟩ := exists_booked_run hop hops
  have hwf : root.Wf (IpAddr.LENGTH α) := hmir.wf
  obtain ⟨m', calls, hdestroy, hrel⟩ := destroySubtrie_spec m hwf (level_zero α) d
  obtain ⟨log, hlog, hfreed⟩ := hrel.deallocs
  refine ⟨root, m, m', calls, hrun, hdestroy, ?_⟩
  rw [← hmir.members_external]
  constructor
  · intro h
    obtain ⟨log', hlog', hblocks⟩ := h.deallocs
    refine (freed_eq_blocks_iff hwf 0).mp (Multiset.map_injective dealloc_injective ?_)
    rw [← hfreed, ← hblocks, List.append_cancel_right (hlog.symm.trans hlog')]
  · intro hext
    have hsame : root.freed 0 = root.blocks 0 := (freed_eq_blocks_iff hwf 0).mpr hext
    have hlive : mmBook.live m = lost + root.freed 0 := by
      rw [hsame, add_comm]
      exact hbook.live
    obtain ⟨hsound', hlive'⟩ := hrel.trades lost hbook.sound hlive
    have hcounts : m'.ms.Counts lost := by
      have hm' : m'.live = lost := hlive'.trans (add_zero lost)
      exact hm' ▸ hsound'.counts
    obtain ⟨hnode, hmem, hlnode, hlmem⟩ := hcounts.eq_zero hbook.units
    have hout : root.blocks 0 ≤ m.live := hbook.live ▸ Multiset.le_add_right _ _
    exact ⟨hout, ⟨log, hlog, hsame ▸ hfreed⟩, hnode, hmem, hlnode, hlmem⟩

end Destroy

/-- **Destroying a trie undoes its allocation just if no stored prefix has six bits or
more**, so that the root has no children. -/
theorem destroyTrie_undoes_iff {op : MemOp} (hop : (mmInit op).Succeeds) (d : Bool) :
    (∀ ops, (storedMachine IpV4).Legal ∅ ops →
      ∃ root m m' calls, ops.foldlM bitmapStep (.zero, mmInit op) = some (root, m) ∧
        bitmapDestroyTrie root m d = some (m', calls) ∧
        (Undoes root m m' ↔ ∀ p ∈ (storedMachine IpV4).exec ∅ ops, p.cidr < 6)) ∧
    (∀ ops, (storedMachine IpV6).Legal ∅ ops →
      ∃ root m m' calls, ops.foldlM bitmapv6Step (.zero, mmInit op) = some (root, m) ∧
        bitmapv6DestroyTrie root m d = some (m', calls) ∧
        (Undoes root m m' ↔ ∀ p ∈ (storedMachine IpV6).exec ∅ ops, p.cidr < 6)) := by
  rw [bitmapStep_eq, bitmapv6Step_eq]
  exact ⟨fun _ hops => exists_run_undoes_iff hop hops d,
    fun _ hops => exists_run_undoes_iff hop hops d⟩

theorem destroyTrie_undoes_iff_insert :
    (∃ root m m' calls, tenOps.foldlM bitmapStep (.zero, mmInit simple) = some (root, m) ∧
      bitmapDestroyTrie root m true = some (m', calls) ∧
      (Undoes root m m' ↔ ∀ p ∈ (storedMachine IpV4).exec ∅ tenOps, p.cidr < 6)) ∧
    (∃ root m m' calls, docOps.foldlM bitmapv6Step (.zero, mmInit simple) = some (root, m) ∧
      bitmapv6DestroyTrie root m true = some (m', calls) ∧
      (Undoes root m m' ↔ ∀ p ∈ (storedMachine IpV6).exec ∅ docOps, p.cidr < 6)) :=
  ⟨(destroyTrie_undoes_iff succeeds_mmInit_simple true).1 _ legal_tenOps,
    (destroyTrie_undoes_iff succeeds_mmInit_simple true).2 _ legal_docOps⟩

/-- With `10.0.0.0/8` alone, the block of the root goes back with one unit too few. -/
theorem not_undoes_tenSlash8 :
    ¬ ∀ ops, (storedMachine IpV4).Legal ∅ ops → ∀ root m,
      ops.foldlM bitmapStep (.zero, mmInit simple) = some (root, m) → ∀ d m' calls,
        bitmapDestroyTrie root m d = some (m', calls) → Undoes root m m' := by
  intro h
  have hlegal : (storedMachine IpV4).Legal ∅ [Op.insert tenSlash8 1] := ⟨trivial, trivial⟩
  obtain ⟨root, m, m', calls, hrun, hdestroy, hiff⟩ :=
    exists_run_undoes_iff succeeds_mmInit_simple hlegal true
  have hall := hiff.mp (h _ hlegal root m (bitmapStep_eq ▸ hrun) true m' calls hdestroy)
  have hstored : tenSlash8 ∈ (∅ : Stored IpV4).insert tenSlash8 1 :=
    Finmap.mem_insert.mpr (.inl rfl)
  have hlt := hall tenSlash8 hstored
  revert hlt
  decide

end TreeBitmap
