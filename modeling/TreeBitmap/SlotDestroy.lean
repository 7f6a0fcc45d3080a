import TreeBitmap.SlotBooks

/-!
# Destroy in the `COMPRESS_NHI` build

`destroy_subtrie` goes over the positions of a node, hands the next hop of each to `destroy_nhi` and
clears its slot.  A slot that several positions use is handed over for the first of them and found
empty for the others.  So the callback gets the next hop of every slot once: fewer calls than in the
plain build, but all next hops.  The blocks come short as they do there, and the counters show it
modulo `2 ^ 32`.

## Main definitions

* `SlotsSeen` — the first loop of `destroy_subtrie`.
* `freed` — the blocks as `destroy_subtrie` describes them.
* `destroySubtrie_spec` — **what a call does**.
* `bitmap_run_slotDestroy` — **the callbacks and the counters** after any run of harmless updates.
-/

namespace TreeBitmap

namespace CompressNhi

open BitString LongestMatch Ranked Ledger

variable {m m₁ m' : Mm} {c n d : MbNode} {f : ℕ → Option Nhi} {mask : Bitmap}
  {slots left pad : List Nhi} {w level pos k : ℕ} {destroyNhi : Bool}

/-! ## The slots -/

/-- An entry is cleared. -/
theorem handed_set {l : List Nhi} {r : ℕ} (hr : r < l.length) (destroyNhi : Bool) :
    handed destroyNhi (l : Multiset Nhi) =
      handed destroyNhi {l[r]} + handed destroyNhi (l.set r 0 : List Nhi) := by
  have hold : (l : Multiset Nhi) = {l[r]} + (l.eraseIdx r : List Nhi) := by
    conv_lhs => rw [← List.set_getElem_self hr]
    exact Multiset.coe_eq_coe.mpr (List.set_perm_cons_eraseIdx hr _)
  have hnew : (l.set r 0 : Multiset Nhi) = {0} + (l.eraseIdx r : List Nhi) :=
    Multiset.coe_eq_coe.mpr (List.set_perm_cons_eraseIdx hr _)
  have hzero : handed destroyNhi {0} = 0 := by rw [handed_singleton, if_neg (by simp)]
  rw [hold, hnew, handed_add, handed_add, hzero, zero_add]

theorem handed_of_forall {s : Multiset Nhi} (h : ∀ v ∈ s, v = 0) (destroyNhi : Bool) :
    handed destroyNhi s = 0 := by
  cases destroyNhi with
  | false => rfl
  | true => exact Multiset.filter_eq_nil.mpr fun v hv => not_not.mpr (h v hv)

theorem assign_slot {r : ℕ} (hrules : c.rules = (mask :: slots) ++ pad) (hr : r < slots.length)
    (nhi : Nhi) :
    NhiPtr.assign ⟨c, ((r + 1 : ℕ) : ℤ)⟩ nhi =
      some { c with rules := (mask :: slots.set r nhi) ++ pad } := by
  have hstore : store c.rules ((r + 1 : ℕ) : ℤ) nhi = some ((mask :: slots.set r nhi) ++ pad) := by
    rw [hrules, store_natCast (by simp; omega), List.cons_append, List.set_cons_succ,
      List.set_append_left _ _ hr]
    rfl
  rw [NhiPtr.assign, hstore]
  rfl

/-- After the positions below `k`: their slots are cleared, and what was in these has been handed
over. -/
structure SlotsSeen (c : MbNode) (mask : Bitmap) (slots pad : List Nhi) (destroyNhi : Bool) (k : ℕ)
    (st : MbNode × List Nhi) (left : List Nhi) : Prop where
  internal : st.1.internal = c.internal
  childPtr : st.1.childPtr = c.childPtr
  rules : st.1.rules = (mask :: left) ++ pad
  length : left.length = slots.length
  cleared : ∀ o ∈ members mask, o < k → lookup (members mask) left o = some 0
  calls : handed destroyNhi slots = ↑st.2 + handed destroyNhi left

theorem SlotsSeen.step {st : MbNode × List Nhi}
    (h : SlotsSeen c mask slots pad destroyNhi k st left)
    (hs : Shares (members c.internal) (members mask) slots f) :
    ∃ st' left', destroyRule destroyNhi st k = some st' ∧
      SlotsSeen c mask slots pad destroyNhi (k + 1) st' left' := by
  obtain ⟨node, calls⟩ := st
  obtain ⟨hint, hptr, hrules, hlen, hclear, hcalls⟩ := h
  simp only at hint hptr hrules hcalls
  have hcard : left.length = (members mask).card := hlen.trans hs.length
  by_cases hmem : k ∈ members c.internal
  · obtain ⟨o, ho⟩ := hs.exists_owner hmem
    have hlt : rank (members mask) o < left.length := hcard ▸ rank_lt_card ho.mem
    have hderef := deref_slot hrules hlt
    rw [List.getElem?_eq_getElem hlt] at hderef
    refine ⟨({ node with rules := (mask :: left.set (rank (members mask) o) 0) ++ pad },
      if destroyNhi ∧ left[rank (members mask) o] ≠ 0 then calls ++ [left[rank (members mask) o]]
      else calls), left.set (rank (members mask) o) 0, ?_, hint, hptr, rfl,
      (List.length_set ..).trans hlen, fun i hi hik => ?_, ?_⟩
    · rw [destroyRule, if_pos (hint ▸ testBitmap_iff.mpr hmem), pointerToNhi_eq hrules ho]
      simp only [Option.bind_eq_bind, Option.bind_some, hderef, assign_slot hrules hlt]
    · rw [lookup_set hcard ho.mem]
      by_cases hio : i = o
      · rw [if_pos hio]
      · -- the owner of `k`, if it is one, is `k` itself
        have hne : i ≠ k := fun hk => hio (hk ▸ (isOwner_self (hk ▸ hi)).unique ho)
        rw [if_neg hio, hclear i hi (by omega)]
    · rw [hcalls, handed_set hlt destroyNhi, ← add_assoc, handed_singleton]
      split_ifs
      · rw [← Multiset.coe_add, Multiset.coe_singleton]
      · rw [add_zero]
  · refine ⟨(node, calls), left, ?_, hint, hptr, hrules, hlen, fun i hi hik => ?_, hcalls⟩
    · rw [destroyRule, if_neg fun h => hmem (hint ▸ testBitmap_iff.mp h)]
    · have hne : i ≠ k := fun hk => hmem (hk ▸ hs.subset hi)
      exact hclear i hi (by omega)

theorem ownSlots_of_zero (h : c.internal = 0#64) : ownSlots c = [] := by
  rw [ownSlots, owners_of_zero h, Finset.card_empty, List.take_zero]

theorem SlotsSeen.handed_left {st : MbNode × List Nhi}
    (h : SlotsSeen c mask slots pad destroyNhi 63 st left)
    (hs : Shares (members c.internal) (members mask) slots f)
    (hint : ∀ pos ∈ members c.internal, pos < 63) : handed destroyNhi left = 0 := by
  refine handed_of_forall (fun v hv => ?_) destroyNhi
  have hall := map_lookup (S := members mask) (h.length.trans hs.length)
  obtain ⟨o, ho, hov⟩ := Multiset.mem_map.mp
    (hall ▸ Multiset.mem_coe.mpr (List.mem_map_of_mem (Multiset.mem_coe.mp hv)))
  rw [h.cleared o ho (hint o (hs.subset ho))] at hov
  exact (Option.some.inj hov).symm

/-- **The first loop of `destroy_subtrie`** hands every slot over once. -/
theorem destroyRules_spec (hp : Packed c f) (hint : ∀ pos ∈ members c.internal, pos < 63)
    (destroyNhi : Bool) :
    ∃ c' calls, destroyRules c destroyNhi = some (c', calls) ∧ ruleNum c' = some (wordCount c) ∧
      c'.childPtr = c.childPtr ∧ (calls : Multiset Nhi) = handed destroyNhi (ownSlots c) := by
  obtain ⟨used, pad, hrules, hwords⟩ := hp
  cases hwords with
  | empty hR =>
      have hzero := members_eq_empty_iff.mp hR
      obtain ⟨st, hfold, rfl⟩ := foldlM_positions
        (f := fun st cidr bit => destroyRule destroyNhi st (countInlBitmap bit cidr))
        (fun _ st => st = (c, [])) rfl fun t st _ hst => by
          subst hst
          exact ⟨(c, []), if_neg fun h => Finset.notMem_empty _ (hR ▸ testBitmap_iff.mp h), rfl⟩
      refine ⟨c, [], hfold, ?_, rfl, ?_⟩
      · rw [ruleNum, if_neg (not_not.mpr hzero), wordCount, if_pos hzero]
      · rw [ownSlots_of_zero hzero, Multiset.coe_nil, handed_zero]
  | @packed mask slots hR hs =>
      have hne : c.internal ≠ 0#64 := fun h => hR.ne_empty (members_eq_empty_iff.mpr h)
      have hstart : SlotsSeen c mask slots pad destroyNhi 0 (c, []) slots :=
        ⟨rfl, rfl, hrules, rfl, fun _ _ h => absurd h (Nat.not_lt_zero _), by simp⟩
      obtain ⟨⟨c', calls⟩, hfold, left, hseen⟩ := foldlM_positions
        (f := fun st cidr bit => destroyRule destroyNhi st (countInlBitmap bit cidr))
        (fun k st => ∃ left, SlotsSeen c mask slots pad destroyNhi k st left) ⟨slots, hstart⟩
        fun t st _ hst => by
          obtain ⟨left, hst⟩ := hst
          obtain ⟨st', left', hrule, hst'⟩ := hst.step hs
          exact ⟨st', hrule, left', hst'⟩
      refine ⟨c', calls, hfold, ?_, hseen.childPtr, ?_⟩
      · have hne' : c'.internal ≠ 0#64 := hseen.internal ▸ hne
        rw [ruleNum, if_pos hne', getInlMask_eq hseen.rules, wordCount_of_ne hne,
          owners_of_getInlMask hne (getInlMask_eq hrules), ← countChildren_eq_card]
        rfl
      · rw [ownSlots_eq hrules hne hs.length, hseen.calls, hseen.handed_left hs hint, add_zero]

/-! ## The blocks -/

/-- The block of a node, with the size that `destroy_subtrie` passes. -/
def ownFreed (level : ℕ) (c : MbNode) : Multiset Block :=
  granted (baseOf c.childPtr (wordCount c)) (upRule (wordCount c)) level

/-- What `destroy_subtrie` gives back. -/
def freed : ℕ → MbNode → Multiset Block := MbNode.collect ownFreed

theorem freed_eq (level : ℕ) (c : MbNode) :
    freed level c = ownFreed level c + (c.children.map (freed (level + 1))).sum :=
  collect_eq ownFreed level c

/-- A part of `destroy_subtrie` that has handed over `nhis`, and given back and counted out
`given`. -/
structure Discharged (destroyNhi : Bool) (nhis : Multiset Nhi) (given : Multiset Block)
    (m m' : Mm) (calls : List Nhi) : Prop where
  calls : (calls : Multiset Nhi) = handed destroyNhi nhis
  refunded : ∃ bs : List Block, (bs : Multiset Block) = given ∧ Refunded m m' bs

theorem Discharged.trans {nhis nhis' : Multiset Nhi} {given given' : Multiset Block}
    {calls calls' : List Nhi} (h : Discharged destroyNhi nhis given m m₁ calls)
    (h' : Discharged destroyNhi nhis' given' m₁ m' calls') :
    Discharged destroyNhi (nhis + nhis') (given + given') m m' (calls ++ calls') where
  calls := by rw [handed_add, ← h.calls, ← h'.calls, Multiset.coe_add]
  refunded := by
    obtain ⟨bs, hbs, href⟩ := h.refunded
    obtain ⟨bs', hbs', href'⟩ := h'.refunded
    exact ⟨bs' ++ bs, by rw [← Multiset.coe_add, hbs, hbs', add_comm], href.trans href'⟩

/-- The end of `destroy_subtrie`: one block is given back. -/
theorem releaseBlock_spec (m : Mm) (hc : HasBlock c) (hlevel : level < MAX_LEVEL)
    (destroyNhi : Bool) :
    ∃ first m', pointSub c.childPtr (upRule (wordCount c)) = some first ∧
      freeNode m first (upRule (wordCount c) +
        upChild (countChildren MbNode.zero.external)) level = some m' ∧
      Discharged destroyNhi 0 (ownFreed level c) m m' [] := by
  have hzero : upChild (countChildren MbNode.zero.external) = 0 := by decide
  rw [hzero, add_zero, ownFreed, baseOf]
  rcases hp : c.childPtr with _ | p
  · have hnone : upRule (wordCount c) = 0 := (Nat.add_eq_zero_iff.mp (hc hp)).2
    refine ⟨none, m, ?_, rfl, (handed_zero destroyNhi).symm, [], rfl, refunded_refl m⟩
    rw [pointSub, if_pos hnone]
  · obtain ⟨m', hfree, -⟩ := deallocNode_spec m (upRule (wordCount c)) hlevel
      (p.sub (upRule (wordCount c)))
    exact ⟨_, m', rfl, hfree, (handed_zero destroyNhi).symm, [_], rfl, refunded_deallocNode hfree⟩

/-! ## The children -/

/-- One round of the second loop of `destroy_subtrie`. -/
def destroyKid (c : MbNode) (destroyNhi : Bool) (level : ℕ) :
    Mm × List Nhi → ℕ → Option (Mm × List Nhi)
  | (m, calls), pos =>
      if testBitmap c.external pos then do
        let next ← c.child pos
        let (m, more) ← destroySubtrie m next destroyNhi (level + 1)
        some (m, calls ++ more)
      else some (m, calls)

theorem destroySubtrie_eq (m : Mm) (c : MbNode) (destroyNhi : Bool) (level : ℕ) :
    destroySubtrie m c destroyNhi level = (do
      let (c', calls) ← destroyRules c destroyNhi
      let (m, calls) ← (List.range (2 ^ STRIDE)).foldlM (destroyKid c destroyNhi level) (m, calls)
      let cntRules ← ruleNum c'
      let first ← pointSub c'.childPtr (upRule cntRules)
      let m ← freeNode m first (upRule cntRules +
        upChild (countChildren MbNode.zero.external)) level
      some (m, calls)) := by
  rw [destroySubtrie]
  congr 1
  funext ⟨c', calls⟩
  change Option.bind (List.foldlM _ (m, calls) _) _ = Option.bind (List.foldlM _ (m, calls) _) _
  congr 2
  funext ⟨m, calls⟩ pos
  simp only [destroyKid, countEnlBitmap]
  by_cases htest : testBitmap c.external pos
  · rw [if_pos htest, if_pos htest]
    split
    · rename_i next hnext
      rw [hnext]
      rfl
    · rename_i hnone
      rw [hnone]
      rfl
  · rw [if_neg htest, if_neg htest]

/-- After the positions below `i`: the slots of the node and of the children at these are handed
over, and the blocks of these children given back. -/
def KidsSeen (c : MbNode) (destroyNhi : Bool) (level : ℕ) (m : Mm) (i : ℕ)
    (st : Mm × List Nhi) : Prop :=
  Discharged destroyNhi
    (↑(ownSlots c) + ((readBelow (members c.external) c.children i).map
      (slotNhis (level + 1))).sum)
    ((readBelow (members c.external) c.children i).map (freed (level + 1))).sum m st.1 st.2

theorem KidsSeen.step {i : ℕ} {st : Mm × List Nhi} (h : KidsSeen c destroyNhi level m i st)
    (hkids : c.children.length = (members c.external).card)
    (hrec : ∀ m d, c.kid i = some d → ∃ m' calls,
      destroySubtrie m d destroyNhi (level + 1) = some (m', calls) ∧
        Discharged destroyNhi (slotNhis (level + 1) d) (freed (level + 1) d) m m' calls) :
    ∃ st', destroyKid c destroyNhi level st i = some st' ∧
      KidsSeen c destroyNhi level m (i + 1) st' := by
  obtain ⟨m₁, calls₁⟩ := st
  by_cases hmem : i ∈ members c.external
  · obtain ⟨d, hd⟩ := Option.isSome_iff_exists.mp (lookup_isSome hkids hmem)
    obtain ⟨m₂, calls₂, hdestroy, hdis⟩ := hrec m₁ d hd
    have hchild : c.child i = some d := load_nextChild hd
    refine ⟨(m₂, calls₁ ++ calls₂), ?_, ?_⟩
    · simp only [destroyKid, if_pos (testBitmap_iff.mpr hmem), hchild, Option.bind_eq_bind,
        Option.bind_some, hdestroy]
    · rw [KidsSeen, readBelow_succ_of_lookup hd]
      simpa only [Multiset.map_add, Multiset.map_singleton, Multiset.sum_add,
        Multiset.sum_singleton, ← add_assoc] using Discharged.trans h hdis
  · refine ⟨(m₁, calls₁), ?_, ?_⟩
    · simp only [destroyKid]
      rw [if_neg fun h => hmem (testBitmap_iff.mp h)]
    · rw [KidsSeen, readBelow_succ_of_notMem hmem]
      exact h

/-- **What `destroy_subtrie` does**: every slot is handed over once, unless it is `NULL`, and one
block is given back for every node. -/
theorem destroySubtrie_spec (m : Mm) (h : Compresses c n) (hn : n.Wf w) (hc : Backed c)
    (hlevel : level + w / 6 < MAX_LEVEL) (destroyNhi : Bool) :
    ∃ m' calls, destroySubtrie m c destroyNhi level = some (m', calls) ∧
      Discharged destroyNhi (slotNhis level c) (freed level c) m m' calls := by
  induction w using Nat.strong_induction_on generalizing m c n level with
  | _ w ih =>
      have hint : ∀ pos ∈ members c.internal, pos < 63 := by
        intro pos hpos
        have hbound := hn.internal (h.internal ▸ hpos)
        have hpow : 2 ^ (min w 5 + 1) ≤ 2 ^ 6 := Nat.pow_le_pow_right (by decide) (by omega)
        omega
      have hall : readBelow (members c.external) c.children (2 ^ STRIDE) = c.children :=
        readBelow_of_forall_lt h.children_length fun _ h => lt_of_mem_members h
      obtain ⟨c', calls, hrules, hnum, hptr, hcalls⟩ := destroyRules_spec h.packed hint destroyNhi
      have hstart : KidsSeen c destroyNhi level m 0 (m, calls) :=
        ⟨by simpa using hcalls, [], by simp, refunded_refl m⟩
      obtain ⟨⟨m₁, calls₁⟩, hfold, hseen⟩ := Run.foldlM_range (n := 2 ^ STRIDE)
        (KidsSeen c destroyNhi level m) hstart fun i st _ hst =>
          hst.step h.children_length fun m₀ d hd => by
            obtain ⟨e, he⟩ := TreeBitmap.exists_kid h.layout (h.external ▸ mem_of_kid hd)
            have hw := hn.le_of_kid he
            exact ih (w - 6) (by omega) m₀ (h.kids hd he) (hn.kids he)
              (hc.kids d (mem_children_of_kid hd)) (by omega)
      obtain ⟨first, m₂, hsub, hfree, hdis⟩ :=
        releaseBlock_spec m₁ hc.own (show level < MAX_LEVEL by omega) destroyNhi
      refine ⟨m₂, calls₁, ?_, ?_⟩
      · rw [destroySubtrie_eq, hrules]
        simp only [Option.bind_eq_bind, Option.bind_some, hfold, hnum, hptr, hsub, hfree]
      · rw [KidsSeen, hall, Multiset.map_coe, Multiset.map_coe, Multiset.sum_coe,
          Multiset.sum_coe] at hseen
        have htrans := Discharged.trans hseen hdis
        rw [add_zero, List.append_nil, add_comm _ (ownFreed level c)] at htrans
        rw [slotNhis_eq, freed_eq]
        exact htrans

/-! ## Fewer calls, and all next hops -/

theorem sum_subset_of_forall₂ {P : MbNode → MbNode → Prop} {f g : MbNode → Multiset Nhi}
    {l l' : List MbNode} (hl : List.Forall₂ P l l') (h : ∀ d e, P d e → g e ⊆ f d) :
    (l'.map g).sum ⊆ (l.map f).sum := by
  induction hl with
  | nil => exact Multiset.Subset.refl _
  | cons hde _ ih =>
      intro v hv
      rw [List.map_cons, List.sum_cons, Multiset.mem_add] at hv ⊢
      exact hv.imp (fun hv => h _ _ hde hv) fun hv => ih hv

/-- The slots hold part of the next hops. -/
theorem Compresses.slotNhis_le (h : Compresses c n) (level : ℕ) :
    slotNhis level c ≤ n.nhis level := by
  refine h.nodes (P := fun c n => ∀ level, slotNhis level c ≤ n.nhis level)
    (fun c n h ih level => ?_) level
  have hshares := h.packed.shares
  rw [h.internal] at hshares
  rw [slotNhis_eq, nhis_eq, MbNode.inner]
  refine add_le_add (hshares.coe_le h.layout.rules_length) (List.Forall₂.sum_le_sum ?_)
  rw [List.forall₂_map_left_iff, List.forall₂_map_right_iff]
  exact ih.imp fun d e hde => hde (level + 1)

/-- Every next hop is in a slot. -/
theorem Compresses.nhis_subset (h : Compresses c n) (level : ℕ) :
    n.nhis level ⊆ slotNhis level c := by
  refine h.nodes (P := fun c n => ∀ level, n.nhis level ⊆ slotNhis level c)
    (fun c n h ih level v hv => ?_) level
  have hshares := h.packed.shares
  rw [h.internal] at hshares
  rw [nhis_eq, MbNode.inner, Multiset.mem_add] at hv
  rw [slotNhis_eq, Multiset.mem_add]
  exact hv.imp (fun hv => hshares.mem_of_mem h.layout.rules_length hv) fun hv =>
    sum_subset_of_forall₂ ih (fun d e hde => hde (level + 1)) hv

theorem handed_le {s t : Multiset Nhi} (h : s ≤ t) (destroyNhi : Bool) :
    handed destroyNhi s ≤ handed destroyNhi t := by
  cases destroyNhi with
  | false => exact le_refl _
  | true => exact Multiset.filter_le_filter _ h

theorem handed_subset {s t : Multiset Nhi} (h : s ⊆ t) (destroyNhi : Bool) :
    handed destroyNhi s ⊆ handed destroyNhi t := by
  cases destroyNhi with
  | false => exact Multiset.Subset.refl _
  | true =>
      intro v hv
      obtain ⟨hv, hne⟩ := Multiset.mem_filter.mp hv
      exact Multiset.mem_filter.mpr ⟨h hv, hne⟩

/-! ## What is left -/

theorem unitsAt_freed (h : Backed c) (l : ℕ) :
    unitsAt (freed 0 c) l = c.sumAtDepth (fun d => upRule (wordCount d)) l := by
  rw [freed, unitsAt_collect_of (fun c hc => hc.kids) (fun c level l hc => ?_) h,
    if_pos (Nat.zero_le l), Nat.sub_zero]
  rw [ownFreed]
  rcases hp : c.childPtr with _ | p
  · rw [(Nat.add_eq_zero_iff.mp (hc.own hp)).2, ite_self]
    rfl
  · exact unitsAt_singleton _ l

theorem Compresses.sumAtDepth_external (h : Compresses c n) (l : ℕ) :
    c.sumAtDepth (fun d => countChildren d.external) l =
      n.sumAtDepth (fun e => countChildren e.external) l := by
  induction l generalizing c n with
  | zero => exact congrArg countChildren h.external
  | succ l ih =>
      rw [MbNode.sumAtDepth, MbNode.sumAtDepth]
      refine congrArg List.sum (List.forall₂_eq_eq_eq ▸ ?_)
      rw [List.forall₂_map_left_iff, List.forall₂_map_right_iff]
      exact h.forall₂.imp fun d e hde => ih hde

section Runs

variable {T : Stored IpV4} {st st' : MbNode × Mm}

/-- **One unit is left for each node but the root**, as in the plain build. -/
theorem Agree.slotUnits_eq_freed (h : Agree st st' T) (hback : Backed st.1) (l : ℕ) :
    slotUnits st.1 l = (T.stems (6 * (l + 1))).card + unitsAt (freed 0 st.1) l := by
  rw [unitsAt_freed hback, ← h.mirrors.card_stems_succ, ← sumAtDepth_one h.mirrors.wf,
    sumAtDepth_succ h.mirrors.wf, ← h.compresses.sumAtDepth_external, ← sumAtDepth_add]
  rfl

end Runs

/-- **Destroy after any run of harmless updates**: `destroy_nhi` gets the next hop of every slot
once, which is no call more than in the plain build and every next hop that is stored, and the
counters are left as there, modulo `2 ^ 32`. -/
theorem bitmap_run_slotDestroy {op : MemOp} (hop : (mmInit op).Succeeds) {ops : List (Op IpV4)}
    (hops : (storedMachine IpV4).Legal ∅ ops)
    (hfit : Run.Guarded bitmapStep (fun st op => Harmless st.1 op) (.zero, mmInit op) ops)
    (destroyNhi : Bool) :
    ∃ root m T m' calls, ops.foldlM bitmapStep (.zero, mmInit op) = some (root, m) ∧
      T = (storedMachine IpV4).exec ∅ ops ∧
      bitmapDestroyTrie root m destroyNhi = some (m', calls) ∧
      (calls : Multiset Nhi) = handed destroyNhi (slotNhis 0 root) ∧
      (calls : Multiset Nhi) ≤ handed destroyNhi T.values ∧
      (∀ v ∈ handed destroyNhi T.values, v ∈ calls) ∧
      m'.ms.Shows fun l => (T.stems (6 * (l + 1))).card := by
  obtain ⟨⟨root, m⟩, st', lost, hrun, h, hbook⟩ := exists_slotBooked_run hop hops hfit
  obtain ⟨m', calls, hdestroy, hcalls, bs, hbs, href⟩ := destroySubtrie_spec m h.compresses
    h.mirrors.wf hbook.backed (level_zero IpV4) destroyNhi
  refine ⟨root, m, _, m', calls, hrun, rfl, hdestroy, hcalls, ?_, fun v hv => ?_, ?_⟩
  · rw [hcalls, ← h.mirrors.nhis]
    exact handed_le (h.compresses.slotNhis_le 0) destroyNhi
  · rw [← Multiset.mem_coe, hcalls]
    rw [← h.mirrors.nhis] at hv
    exact handed_subset (h.compresses.nhis_subset 0) destroyNhi hv
  · refine href.shows hbook.accountedFor.counters fun l => ?_
    rw [hbs]
    exact h.slotUnits_eq_freed hbook.backed l

/-- Two prefixes with one slot. -/
theorem bitmap_run_slotDestroy_halves :
    ∃ root m T m' calls, [Op.insert upperHalf 1, .insert lowerHalf 1].foldlM bitmapStep
        (.zero, mmInit simple) = some (root, m) ∧
      T = (storedMachine IpV4).exec ∅ [Op.insert upperHalf 1, .insert lowerHalf 1] ∧
      bitmapDestroyTrie root m true = some (m', calls) ∧
      (calls : Multiset Nhi) = handed true (slotNhis 0 root) ∧
      (calls : Multiset Nhi) ≤ handed true T.values ∧
      (∀ v ∈ handed true T.values, v ∈ calls) ∧
      m'.ms.Shows fun l => (T.stems (6 * (l + 1))).card := by
  have hops : (storedMachine IpV4).Legal ∅ [Op.insert upperHalf 1, .insert lowerHalf 1] :=
    ⟨trivial, trivial, trivial⟩
  exact bitmap_run_slotDestroy succeeds_mmInit_simple hops
    (guarded_halves succeeds_mmInit_simple) true

end CompressNhi

end TreeBitmap
