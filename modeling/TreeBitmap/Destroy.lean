import TreeBitmap.Delete
import TreeBitmap.Lib.Run

/-!
# Destroy

`destroy_subtrie` reads every next hop of a trie once and hands one block for each
node to `dealloc_node`.  The size it passes is counted after the bitmap of the
children has been cleared, so that it is the size of the next-hop part only:
`freed` is what is given back, and it is `blocks` just for a trie without inner
nodes.

## Main definitions

* `MbNode.freed` — the blocks as `destroy_subtrie` describes them.
* `destroySubtrie_spec` — what a call does.
* `units_freed_add_le` — how much falls short; `freed_eq_blocks_iff` — when nothing does.
-/

namespace TreeBitmap

open BitString LongestMatch Ranked Ledger

variable {m : Mm} {n : MbNode} {w level : ℕ}

/-! ## The next hops -/

/-- The next hops that are handed to a callback. -/
def handed (destroyNhi : Bool) (nhis : Multiset Nhi) : Multiset Nhi :=
  if destroyNhi then nhis.filter (· ≠ 0) else 0

@[simp] theorem handed_zero (d : Bool) : handed d 0 = 0 := by
  cases d <;> rfl

theorem handed_add (d : Bool) (s t : Multiset Nhi) :
    handed d (s + t) = handed d s + handed d t := by
  cases d
  · rfl
  · exact Multiset.filter_add _ s t

theorem handed_singleton (d : Bool) (v : Nhi) :
    handed d {v} = if d ∧ v ≠ 0 then {v} else 0 := by
  cases d
  · simp [handed]
  · by_cases h : v = 0 <;> simp [handed, h, Multiset.filter_singleton]

/-- After the positions below `k`: these have been handed over and cleared, the
others are as they were. -/
structure RulesSeen (n : MbNode) (d : Bool) (k : ℕ) (st : MbNode × List Nhi) : Prop where
  layout : st.1.Layout
  internal : st.1.internal = n.internal
  childPtr : st.1.childPtr = n.childPtr
  rule : ∀ i, k ≤ i → st.1.rule i = n.rule i
  calls : (st.2 : Multiset Nhi) = handed d (readBelow (members n.internal) n.rules k)

theorem RulesSeen.step {d : Bool} {k : ℕ} {st : MbNode × List Nhi} (h : RulesSeen n d k st)
    (hn : n.Layout) : ∃ st', destroyRule d st k = some st' ∧ RulesSeen n d (k + 1) st' := by
  obtain ⟨node, calls⟩ := st
  obtain ⟨hl, hint, hptr, hrule, hcalls⟩ := h
  simp only at hl hint hptr hrule hcalls
  by_cases hmem : k ∈ members n.internal
  · have hmem' : k ∈ members node.internal := hint ▸ hmem
    obtain ⟨v, hv⟩ := exists_rule hn hmem
    refine ⟨(node.putRule k 0, if d ∧ v ≠ 0 then calls ++ [v] else calls), ?_,
      layout_putRule hl k 0, hint, hptr, fun i hi => ?_, ?_⟩
    · simp only [destroyRule]
      rw [if_pos (testBitmap_iff.mpr hmem'), deref_pointerToNhi hmem', hrule k (le_refl k), hv,
        assign_pointerToNhi hl hmem']
      rfl
    · rw [rule_putRule hl hmem', if_neg (by omega), hrule i (by omega)]
    · rw [readBelow_succ_of_lookup hv, handed_add, handed_singleton, ← hcalls]
      split_ifs
      · exact (Multiset.coe_add calls [v]).symm
      · exact (add_zero _).symm
  · refine ⟨(node, calls), ?_, hl, hint, hptr, fun i hi => hrule i (by omega), ?_⟩
    · simp only [destroyRule]
      rw [if_neg fun h => hmem (hint ▸ testBitmap_iff.mp h)]
    · rw [readBelow_succ_of_notMem hmem]
      exact hcalls

theorem destroyRules_spec (hn : n.Layout) (hint : ∀ pos ∈ members n.internal, pos < 63)
    (level : ℕ) (d : Bool) :
    ∃ n' calls, destroyRules n d = some (n', calls) ∧ n'.internal = n.internal ∧
      n'.childPtr = n.childPtr ∧ (calls : Multiset Nhi) = handed d (n.ownNhis level) := by
  have hstart : RulesSeen n d 0 (n, []) := ⟨hn, rfl, rfl, fun _ _ => rfl, by simp⟩
  obtain ⟨⟨n', calls⟩, hfold, hseen⟩ := foldlM_positions
    (f := fun st cidr bit => destroyRule d st (countInlBitmap bit cidr)) (RulesSeen n d) hstart
    fun _ _ _ hst => hst.step hn
  have hall : readBelow (members n.internal) n.rules 63 = n.ownNhis level :=
    readBelow_of_forall_lt hn.rules_length hint
  exact ⟨n', calls, hfold, hseen.internal, hseen.childPtr, by rw [← hall, ← hseen.calls]⟩

/-! ## The blocks -/

/-- The block of a node, with the size that `destroy_subtrie` passes. -/
def MbNode.ownFreed (level : ℕ) (n : MbNode) : Multiset Block :=
  granted n.base (upRule (countChildren n.internal)) level

/-- What `destroy_subtrie` gives back. -/
def MbNode.freed : ℕ → MbNode → Multiset Block := MbNode.collect MbNode.ownFreed

theorem freed_eq (level : ℕ) (n : MbNode) :
    n.freed level = n.ownFreed level + n.inner MbNode.ownFreed level := collect_eq_inner

/-- The call of `dealloc_node` for a block. -/
def Block.dealloc (b : Block) : MmCall := .dealloc b.units b.level b.base

/-- A part of `destroy_subtrie` that has handed over `nhis` and given back `blocks`. -/
structure Released (d : Bool) (nhis : Multiset Nhi) (blocks : Multiset Block) (m m' : Mm)
    (calls : List Nhi) : Prop where
  op : m'.op = m.op
  calls : (calls : Multiset Nhi) = handed d nhis
  trades : mmBook.Trades m m' blocks 0
  deallocs : ∃ log, m'.calls = log ++ m.calls ∧ (log : Multiset MmCall) = blocks.map Block.dealloc

theorem Released.trans {d : Bool} {nhis nhis' : Multiset Nhi} {blocks blocks' : Multiset Block}
    {m m' m'' : Mm} {calls calls' : List Nhi} (h : Released d nhis blocks m m' calls)
    (h' : Released d nhis' blocks' m' m'' calls') :
    Released d (nhis + nhis') (blocks + blocks') m m'' (calls ++ calls') where
  op := h'.op.trans h.op
  calls := by rw [handed_add, ← h.calls, ← h'.calls, Multiset.coe_add]
  trades := by
    refine ((h.trades.frame blocks').congr (add_comm _ _) rfl).trans ?_
    exact h'.trades.congr (add_zero _) rfl
  deallocs := by
    obtain ⟨log, hlog, hmap⟩ := h.deallocs
    obtain ⟨log', hlog', hmap'⟩ := h'.deallocs
    refine ⟨log' ++ log, by rw [hlog', hlog, List.append_assoc], ?_⟩
    rw [← Multiset.coe_add, hmap, hmap', Multiset.map_add, add_comm]

/-- The end of `destroy_subtrie`: one block is given back. -/
theorem releaseBlock_spec (m : Mm) (hn : n.Layout) (hlevel : level < MAX_LEVEL) (d : Bool) :
    ∃ first m', pointSub n.childPtr (upRule (countChildren n.internal)) = some first ∧
      freeNode m first (upRule (countChildren n.internal) +
        upChild (countChildren MbNode.zero.external)) level = some m' ∧
      Released d 0 (n.ownFreed level) m m' [] := by
  have hzero : upChild (countChildren MbNode.zero.external) = 0 := by decide
  rw [hzero, add_zero, MbNode.ownFreed, MbNode.base]
  rcases hp : n.childPtr with _ | p
  · refine ⟨none, m, ?_, rfl, rfl, (handed_zero d).symm, Book.Trades.refl _ _, [], rfl, rfl⟩
    rw [(hn.count_of_null hp).1]
    rfl
  · obtain ⟨m', hfree, hop, hcalls, htrade⟩ := deallocNode_spec m
      (upRule (countChildren n.internal)) hlevel (p.sub (upRule (countChildren n.internal)))
    exact ⟨_, m', rfl, hfree, hop, (handed_zero d).symm, htrade, [_], hcalls, rfl⟩

/-- After the positions below `i`: the children at these are released. -/
def KidsSeen (d : Bool) (n : MbNode) (level : ℕ) (m : Mm) (i : ℕ) (st : Mm × List Nhi) : Prop :=
  Released d
    (n.ownNhis level + ((readBelow (members n.external) n.children i).map
      (MbNode.nhis (level + 1))).sum)
    ((readBelow (members n.external) n.children i).map (MbNode.freed (level + 1))).sum m st.1 st.2

/-- One round of the second loop of `destroy_subtrie`. -/
def destroyKid (n : MbNode) (d : Bool) (level : ℕ) :
    Mm × List Nhi → ℕ → Option (Mm × List Nhi)
  | (m, calls), pos =>
      if testBitmap n.external pos then do
        let next ← n.child pos
        let (m, more) ← destroySubtrie m next d (level + 1)
        some (m, calls ++ more)
      else some (m, calls)

theorem destroySubtrie_eq (m : Mm) (n : MbNode) (d : Bool) (level : ℕ) :
    destroySubtrie m n d level = (do
      let (n', calls) ← destroyRules n d
      let (m, calls) ← (List.range (2 ^ STRIDE)).foldlM (destroyKid n d level) (m, calls)
      let first ← pointSub n'.childPtr (upRule (countChildren n'.internal))
      let m ← freeNode m first (upRule (countChildren n'.internal) +
        upChild (countChildren MbNode.zero.external)) level
      some (m, calls)) := by
  rw [destroySubtrie]
  congr 1
  funext ⟨n', calls⟩
  change Option.bind (List.foldlM _ (m, calls) _) _ = Option.bind (List.foldlM _ (m, calls) _) _
  congr 2
  funext ⟨m, calls⟩ pos
  simp only [destroyKid, countEnlBitmap]
  by_cases htest : testBitmap n.external pos
  · rw [if_pos htest, if_pos htest]
    split
    · rename_i next hnext
      rw [hnext]
      rfl
    · rename_i hnone
      rw [hnone]
      rfl
  · rw [if_neg htest, if_neg htest]

/-- A child is released: `hrec` is what the recursive call does. -/
theorem KidsSeen.step {d : Bool} {i : ℕ} {st : Mm × List Nhi} (h : KidsSeen d n level m i st)
    (hn : n.Layout)
    (hrec : ∀ m c, n.kid i = some c → ∃ m' calls, destroySubtrie m c d (level + 1) =
      some (m', calls) ∧ Released d (c.nhis (level + 1)) (c.freed (level + 1)) m m' calls) :
    ∃ st', destroyKid n d level st i = some st' ∧ KidsSeen d n level m (i + 1) st' := by
  obtain ⟨m₁, calls₁⟩ := st
  by_cases hmem : i ∈ members n.external
  · obtain ⟨c, hc⟩ := exists_kid hn hmem
    obtain ⟨m₂, calls₂, hdestroy, hrel⟩ := hrec m₁ c hc
    have htrans := Released.trans h hrel
    refine ⟨(m₂, calls₁ ++ calls₂), ?_, ?_⟩
    · simp only [destroyKid]
      rw [if_pos (testBitmap_iff.mpr hmem), child_eq_kid hmem, hc]
      simp only [Option.bind_eq_bind, Option.bind_some, hdestroy]
    · rw [KidsSeen, readBelow_succ_of_lookup hc]
      simpa only [Multiset.map_add, Multiset.map_singleton, Multiset.sum_add,
        Multiset.sum_singleton, ← add_assoc] using htrans
  · refine ⟨(m₁, calls₁), ?_, ?_⟩
    · simp only [destroyKid]
      rw [if_neg fun h => hmem (testBitmap_iff.mp h)]
    · rw [KidsSeen, readBelow_succ_of_notMem hmem]
      exact h

/-- **What `destroy_subtrie` does**: every next hop is handed over once, unless it is
`NULL`, and one block is given back for every node. -/
theorem destroySubtrie_spec (m : Mm) (hn : n.Wf w) (hlevel : level + w / 6 < MAX_LEVEL)
    (d : Bool) :
    ∃ m' calls, destroySubtrie m n d level = some (m', calls) ∧
      Released d (n.nhis level) (n.freed level) m m' calls := by
  induction w using Nat.strong_induction_on generalizing m n level with
  | _ w ih =>
      have hint : ∀ pos ∈ members n.internal, pos < 63 := by
        intro pos hpos
        have hbound := hn.internal hpos
        have hpow : 2 ^ (min w 5 + 1) ≤ 2 ^ 6 := Nat.pow_le_pow_right (by decide) (by omega)
        omega
      have hall : readBelow (members n.external) n.children (2 ^ STRIDE) = n.children :=
        readBelow_of_forall_lt hn.layout.children_length fun _ h => lt_of_mem_members h
      obtain ⟨n', calls, hrules, hinternal, hptr, hcalls⟩ :=
        destroyRules_spec hn.layout hint level d
      have hstart : KidsSeen d n level m 0 (m, calls) :=
        ⟨rfl, by simpa using hcalls, by simpa using Book.Trades.refl m 0, [], rfl, by simp⟩
      obtain ⟨⟨m₁, calls₁⟩, hfold, hseen⟩ := Run.foldlM_range (n := 2 ^ STRIDE)
        (KidsSeen d n level m) hstart fun i st _ hst => hst.step hn.layout fun m₀ c hc => by
          have hw := hn.le_of_kid hc
          exact ih (w - 6) (by omega) m₀ (hn.kids hc) (by omega)
      have hlevel₀ : level < MAX_LEVEL := by omega
      obtain ⟨first, m₂, hsub, hfree, hrel⟩ := releaseBlock_spec m₁ hn.layout hlevel₀ d
      refine ⟨m₂, calls₁, ?_, ?_⟩
      · rw [destroySubtrie_eq, hrules]
        simp only [Option.bind_eq_bind, Option.bind_some, hfold, hinternal, hptr, hsub, hfree]
      · rw [KidsSeen, hall, Multiset.map_coe, Multiset.map_coe, Multiset.sum_coe,
          Multiset.sum_coe] at hseen
        have htrans := Released.trans hseen hrel
        rw [add_zero, List.append_nil, add_comm _ (n.ownFreed level)] at htrans
        rw [nhis_eq, freed_eq]
        exact htrans

/-! ## What falls short -/

/-- The units of a collection of blocks. -/
def totalUnits (s : Multiset Block) : ℕ := (s.map Block.units).sum

@[simp] theorem totalUnits_add (s t : Multiset Block) :
    totalUnits (s + t) = totalUnits s + totalUnits t := by
  simp [totalUnits]

@[simp] theorem totalUnits_zero : totalUnits 0 = 0 := rfl

theorem totalUnits_sum_le {β : Type} {f g : β → Multiset Block} {l : List β}
    (h : ∀ c ∈ l, totalUnits (f c) ≤ totalUnits (g c)) :
    totalUnits (l.map f).sum ≤ totalUnits (l.map g).sum := by
  induction l with
  | nil => rfl
  | cons c l ih =>
      have hhead := h c List.mem_cons_self
      have htail := ih fun c' hc' => h c' (List.mem_cons_of_mem c hc')
      simp only [List.map_cons, List.sum_cons, totalUnits_add]
      omega

/-- A node is described by one unit too few for each of its children. -/
theorem totalUnits_own (hn : n.Layout) (level : ℕ) :
    totalUnits (n.ownFreed level) + countChildren n.external = totalUnits (n.own level) := by
  rw [MbNode.ownFreed, MbNode.own, MbNode.base, MbNode.units, upChild]
  rcases hp : n.childPtr with _ | p
  · rw [(hn.count_of_null hp).2]
    rfl
  · simp [granted, totalUnits, add_comm]

/-- **Every child of the root is missing** from what is given back, and those
further down are as well. -/
theorem units_freed_add_le (hn : n.Wf w) (level : ℕ) :
    totalUnits (n.freed level) + countChildren n.external ≤ totalUnits (n.blocks level) := by
  induction n using MbNode.induction generalizing w level with
  | h n ih =>
      have hinner : totalUnits (n.inner MbNode.ownFreed level) ≤
          totalUnits (n.inner MbNode.own level) := by
        apply totalUnits_sum_le
        intro c hc
        have := ih c hc (hn.kids_of_mem hc) (level + 1)
        rw [MbNode.freed, MbNode.blocks] at this
        omega
      have hown := totalUnits_own hn.layout level
      rw [freed_eq, blocks_eq, totalUnits_add, totalUnits_add]
      omega

/-- The blocks are described as they are just if the node has no children. -/
theorem freed_eq_blocks_iff (hn : n.Wf w) (level : ℕ) :
    n.freed level = n.blocks level ↔ members n.external = ∅ := by
  constructor
  · intro h
    have hle := units_freed_add_le hn level
    rw [h, countChildren_eq_card] at hle
    have hcard : (members n.external).card = 0 := by omega
    exact Finset.card_eq_zero.mp hcard
  · intro hext
    have hcount : countChildren n.external = 0 := by
      rw [countChildren_eq_card, hext, Finset.card_empty]
    have hkids : n.children = [] := by
      rw [← List.length_eq_zero_iff, hn.layout.countKids, hcount]
    have hown : n.ownFreed level = n.own level := by
      rw [MbNode.ownFreed, MbNode.own, MbNode.units, hcount, upChild, zero_add]
    rw [freed_eq, blocks_eq, hown, MbNode.inner, MbNode.inner, hkids]
    rfl

end TreeBitmap
