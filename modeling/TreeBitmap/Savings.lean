import TreeBitmap.Redundant

/-!
# What the `COMPRESS_NHI` build saves

A node of the `COMPRESS_NHI` build has a slot for each position in its mask, the plain build one
for each stored prefix.  `bitmap_redund_rule` counts the prefixes that have the next hop of the one
before them.  After a run of harmless updates no more slots than that are saved; if the prefixes are
loaded in such an order that none comes after another one of its node, all of these updates are
harmless and just that many slots are saved.

## Main definitions

* `owners c`, `ownSlots c`, `slotNhis` — the positions with a slot, and the next hops in the slots.
* `Compresses.card_slotNhis_le`, `Compresses.card_nhis_le` — **bounds on what is saved**.
* `Tight c` — no slot of the trie is redundant; `insertPrefix_tight` — an insert in front of its
  node keeps that.
* `bitmap_run_saves`, `bitmap_load_saves` — what that says about runs.
-/

namespace TreeBitmap

namespace CompressNhi

open BitString LongestMatch Ranked
open IpAddr (lshift)

variable {α : Type} [IpAddr α] {m m' : Mm} {c c' n d : MbNode} {f : ℕ → Option Nhi} {mask : Bitmap}
  {slots used pad : List Nhi} {w level pos i : ℕ} {nhi : Nhi}

/-! ## Slots -/

/-- The positions of a node that have a slot. -/
def owners (c : MbNode) : Finset ℕ :=
  if c.internal = 0#64 then ∅ else ((getInlMask c).map members).getD ∅

/-- The next hops in the slots of a node. -/
def ownSlots (c : MbNode) : List Nhi := (c.rules.drop 1).take (owners c).card

/-- The next hops in the slots of a trie. -/
def slotNhis : ℕ → MbNode → Multiset Nhi := MbNode.collect fun _ c => ↑(ownSlots c)

theorem owners_of_zero (h : c.internal = 0#64) : owners c = ∅ := if_pos h

theorem owners_of_getInlMask (hne : c.internal ≠ 0#64) (h : getInlMask c = some mask) :
    owners c = members mask := by
  rw [owners, if_neg hne, h]
  rfl

theorem ownSlots_eq (hrules : c.rules = (mask :: slots) ++ pad) (hne : c.internal ≠ 0#64)
    (hlen : slots.length = (members mask).card) : ownSlots c = slots := by
  rw [ownSlots, owners_of_getInlMask hne (getInlMask_eq hrules), hrules, ← hlen, List.cons_append,
    List.drop_succ_cons, List.drop_zero, List.take_left]

/-- The slots of a node hold its next hops, each for the positions up to the one that owns it. -/
theorem Packed.shares (h : Packed c f) : Shares (members c.internal) (owners c) (ownSlots c) f := by
  obtain ⟨used, pad, hrules, hwords⟩ := h
  cases hwords with
  | empty hR =>
      have hzero := owners_of_zero (members_eq_empty_iff.mp hR)
      rw [ownSlots, hzero, hR]
      exact Shares.empty
  | @packed mask slots hR hs =>
      have hne : c.internal ≠ 0#64 := fun h => hR.ne_empty (members_eq_empty_iff.mpr h)
      rw [owners_of_getInlMask hne (getInlMask_eq hrules), ownSlots_eq hrules hne hs.length]
      exact hs

theorem slotNhis_eq (level : ℕ) (c : MbNode) :
    slotNhis level c = ↑(ownSlots c) + (c.children.map (slotNhis (level + 1))).sum :=
  collect_eq _ level c

/-! ## Bounds -/

/-- The children of corresponding nodes correspond. -/
theorem Compresses.forall₂ (h : Compresses c n) :
    List.Forall₂ Compresses c.children n.children := by
  have hlen : c.children.length = n.children.length := by
    rw [h.children_length, h.layout.children_length, h.external]
  refine List.forall₂_iff_get.mpr ⟨hlen, fun r hr hr' => ?_⟩
  obtain ⟨pos, hpos, hrank⟩ : ∃ pos ∈ members n.external, rank (members n.external) pos = r := by
    have hmem : r ∈ (members n.external).image (rank (members n.external)) := by
      rw [image_rank, Finset.mem_range, ← h.layout.children_length]
      exact hr'
    exact Finset.mem_image.mp hmem
  have hc : c.kid pos = some (c.children.get ⟨r, hr⟩) := by
    rw [MbNode.kid, h.external, lookup_of_mem hpos, hrank, List.getElem?_eq_getElem hr]
    rfl
  have hn : n.kid pos = some (n.children.get ⟨r, hr'⟩) := by
    rw [MbNode.kid, lookup_of_mem hpos, hrank, List.getElem?_eq_getElem hr']
    rfl
  exact h.kids hc hn

theorem card_ownNhis (hn : n.Layout) (level : ℕ) :
    (n.ownNhis level).card = (members n.internal).card := hn.rules_length

theorem card_sum_map {β : Type} (l : List MbNode) (g : MbNode → Multiset β) :
    (l.map g).sum.card = (l.map fun c => (g c).card).sum := by
  induction l with
  | nil => rfl
  | cons c l ih => simp [ih]

/-- Induction over corresponding nodes. -/
theorem Compresses.nodes {P : MbNode → MbNode → Prop}
    (hP : ∀ c n, Compresses c n → List.Forall₂ P c.children n.children → P c n)
    (h : Compresses c n) : P c n := by
  induction n using MbNode.induction generalizing c with
  | h n ih =>
      refine hP c n h (List.forall₂_iff_get.mpr ⟨h.forall₂.length_eq, fun r hr hr' => ?_⟩)
      exact ih _ (List.get_mem _ _) (h.forall₂.get hr hr')

/-- **No more slots than next hops.** -/
theorem Compresses.card_slotNhis_le (h : Compresses c n) (level : ℕ) :
    (slotNhis level c).card ≤ (n.nhis level).card := by
  refine h.nodes (P := fun c n => ∀ level, (slotNhis level c).card ≤ (n.nhis level).card)
    (fun c n h ih level => ?_) level
  have hown : (ownSlots c).length ≤ (members n.internal).card := by
    rw [h.packed.shares.length, ← h.internal]
    exact Finset.card_le_card h.packed.shares.subset
  have hkids : (c.children.map fun d => (slotNhis (level + 1) d).card).sum ≤
      (n.children.map fun e => (e.nhis (level + 1)).card).sum := by
    refine List.Forall₂.sum_le_sum ?_
    rw [List.forall₂_map_left_iff, List.forall₂_map_right_iff]
    exact ih.imp fun d e hde => hde (level + 1)
  rw [slotNhis_eq, nhis_eq, MbNode.inner, Multiset.card_add, Multiset.card_add,
    card_ownNhis h.layout, card_sum_map, card_sum_map, Multiset.coe_card]
  exact Nat.add_le_add hown hkids

/-- The next hops of a node are there. -/
theorem exists_rule_ne (hn : n.Layout) (hnull : ∀ v ∈ n.nhis level, v ≠ 0) (i : ℕ)
    (hi : i ∈ members n.internal) : ∃ v, n.rule i = some v ∧ v ≠ 0 := by
  obtain ⟨v, hv⟩ := TreeBitmap.exists_rule hn hi
  refine ⟨v, hv, hnull v ?_⟩
  rw [MbNode.rule, lookup_of_mem hi] at hv
  rw [nhis_eq, Multiset.mem_add]
  exact .inl (Multiset.mem_coe.mpr (List.mem_of_getElem? hv))

/-- Sums over corresponding children compare as the children do. -/
theorem sum_of_forall₂ {P : MbNode → MbNode → Prop} {r : ℕ → ℕ → Prop} (h0 : r 0 0)
    (hadd : ∀ a b a' b', r a b → r a' b' → r (a + a') (b + b')) {g f k : MbNode → ℕ}
    {l l' : List MbNode} (hl : List.Forall₂ P l l')
    (h : ∀ d e, d ∈ l → e ∈ l' → P d e → r (g e) (f d + k e)) :
    r (l'.map g).sum ((l.map f).sum + (l'.map k).sum) := by
  induction hl with
  | nil => exact h0
  | @cons d e l l' hde _ ih =>
      have hhead := h d e List.mem_cons_self List.mem_cons_self hde
      have htail := ih fun d e hd he =>
        h d e (List.mem_cons_of_mem _ hd) (List.mem_cons_of_mem _ he)
      simp only [List.map_cons, List.sum_cons]
      rw [add_add_add_comm]
      exact hadd _ _ _ _ hhead htail

theorem nhis_le_of_mem {e : MbNode} (he : e ∈ n.children) : e.nhis (level + 1) ≤ n.nhis level := by
  have hinner : e.nhis (level + 1) ≤ n.inner MbNode.ownNhis level :=
    List.single_le_sum (fun _ _ => Multiset.zero_le _) _ (List.mem_map_of_mem he)
  rw [nhis_eq level n]
  exact hinner.trans (Multiset.le_add_left _ _)

/-- What is saved at one node: `k` is what is saved below it. -/
theorem card_nhis_eq_add (hn : n.Layout) (level : ℕ) :
    (n.nhis level).card =
      (members n.internal).card + (n.children.map fun e => (e.nhis (level + 1)).card).sum := by
  rw [nhis_eq, MbNode.inner, Multiset.card_add, card_ownNhis hn, card_sum_map]
  rfl

theorem card_slotNhis_eq_add (level : ℕ) (c : MbNode) :
    (slotNhis level c).card =
      (ownSlots c).length + (c.children.map fun d => (slotNhis (level + 1) d).card).sum := by
  rw [slotNhis_eq, Multiset.card_add, card_sum_map, Multiset.coe_card]

/-- **No more is saved than the redundancy** of the trie. -/
theorem Compresses.card_nhis_le (h : Compresses c n) (hn : n.Wf w)
    (hnull : ∀ v ∈ n.nhis level, v ≠ 0) :
    (n.nhis level).card ≤ (slotNhis level c).card + redundancy n.get := by
  refine h.nodes (P := fun c n => ∀ w level, n.Wf w → (∀ v ∈ n.nhis level, v ≠ 0) →
    (n.nhis level).card ≤ (slotNhis level c).card + redundancy n.get)
    (fun c n h ih w level hn hnull => ?_) w level hn hnull
  have hshares := h.packed.shares
  rw [h.internal] at hshares
  have hown := hshares.card_le (exists_rule_ne h.layout hnull)
  have hkids : (n.children.map fun e => (e.nhis (level + 1)).card).sum ≤
      (c.children.map fun d => (slotNhis (level + 1) d).card).sum +
        (n.children.map fun e => redundancy e.get).sum := by
    refine sum_of_forall₂ (r := (· ≤ ·)) (le_refl 0) (fun _ _ _ _ => Nat.add_le_add) ih
      fun d e _ he hde => hde (w - 6) (level + 1) (hn.kids_of_mem he) fun v hv => ?_
    exact hnull v (Multiset.mem_of_le (nhis_le_of_mem he) hv)
  rw [card_nhis_eq_add h.layout, card_slotNhis_eq_add, redundancy_eq hn, hshares.length]
  omega

/-! ## The first word of a block -/

theorem getElem?_zero_memcpy {β : Type} {dst src l : List β} {j i len : ℤ}
    (h : memcpy dst j src i len = some l) (hj : 0 < j) : l[0]? = dst[0]? := by
  rw [memcpy] at h
  split_ifs at h with hlen hbound
  · rw [Option.some.inj h]
  · obtain rfl := Option.some.inj h
    have hpos : 0 < (dst.take j.toNat).length := by
      rw [List.length_take]
      omega
    rw [List.append_assoc, List.getElem?_append_left hpos, List.getElem?_take_of_lt (by omega)]

theorem getElem?_zero_memcpy_zero {β : Type} {dst src l : List β} {len : ℤ}
    (h : memcpy dst 0 src 0 len = some l) (hlen : len ≠ 0) : l[0]? = src[0]? := by
  rw [memcpy, if_neg hlen] at h
  split_ifs at h with hbound
  obtain rfl := Option.some.inj h
  have hpos : 0 < (src.take len.toNat).length := by
    rw [List.length_take]
    omega
  simp only [Int.toNat_zero, List.take_zero, List.nil_append, List.drop_zero]
  rw [List.getElem?_append_left hpos, List.getElem?_take_of_lt (by omega)]

theorem getElem?_zero_store {β : Type} {l l' : List β} {j : ℤ} {x : β}
    (h : store l j x = some l') (hj : 0 < j) : l'[0]? = l[0]? := by
  rw [store] at h
  split_ifs at h with hbound
  obtain rfl := Option.some.inj h
  rw [List.getElem?_set_ne (by omega)]

theorem getElem?_zero_store_zero {β : Type} {l l' : List β} {x : β} (h : store l 0 x = some l') :
    l'[0]? = some x := by
  rw [store] at h
  split_ifs at h with hbound
  obtain rfl := Option.some.inj h
  rw [Int.toNat_zero, List.getElem?_set_self (by omega)]

theorem getInlMask_eq_getElem? (c : MbNode) : getInlMask c = c.rules[0]? := by
  rw [getInlMask]
  exact load_natCast c.rules 0

/-- **Where `extend_rule` leaves slots**: a redundant next hop gets none. -/
theorem owners_extendRule (hpos : pos < 63) (h : extendRule m c pos level nhi = some (c', m')) :
    owners c' = if isRedund c pos nhi = some true then owners c else insert pos (owners c) := by
  have hset : setBitmap c.internal pos ≠ 0#64 := by
    intro hzero
    have hmem : pos ∈ members (setBitmap c.internal pos) := by
      rw [members_setBitmap (by omega)]
      exact Finset.mem_insert_self _ _
    rw [members_eq_empty_iff.mpr hzero] at hmem
    exact absurd hmem (Finset.notMem_empty pos)
  rw [extendRule] at h
  obtain ⟨k, hnum, h⟩ := Option.bind_eq_some_iff.mp h
  obtain ⟨b, hred, h⟩ := Option.bind_eq_some_iff.mp h
  cases b with
  | true =>
      obtain ⟨rfl, -⟩ := Prod.mk.inj (Option.some.inj h)
      have hne : c.internal ≠ 0#64 := by
        intro hzero
        rw [isRedund, hzero] at hred
        simp at hred
      rw [if_pos hred, owners, owners, if_neg hset, if_neg hne]
      rfl
  | false =>
      rw [if_neg (by simp [hred])]
      obtain ⟨⟨node, pos'⟩, hnode, h⟩ := Option.bind_eq_some_iff.mp h
      obtain ⟨⟨n, m₁⟩, -, h⟩ := Option.bind_eq_some_iff.mp h
      obtain ⟨children, -, h⟩ := Option.bind_eq_some_iff.mp h
      obtain ⟨newMask, hmask, h⟩ := Option.bind_eq_some_iff.mp h
      obtain ⟨rules₀, hstore, h⟩ := Option.bind_eq_some_iff.mp h
      obtain ⟨rules₁, hcopy, h⟩ := Option.bind_eq_some_iff.mp h
      obtain ⟨rules₂, hslot, h⟩ := Option.bind_eq_some_iff.mp h
      obtain ⟨m₂, -, h⟩ := Option.bind_eq_some_iff.mp h
      obtain ⟨rfl, -⟩ := Prod.mk.inj (Option.some.inj h)
      by_cases hzero : c.internal = 0#64
      · -- the first next hop: the mask is the bitmap
        rw [if_neg (not_not.mpr hzero)] at hnode
        obtain ⟨rfl, rfl⟩ := Prod.mk.inj (Option.some.inj hnode)
        obtain rfl : k = 0 := by
          rw [ruleNum, if_neg (not_not.mpr hzero)] at hnum
          exact (Option.some.inj hnum).symm
        obtain rfl := Option.some.inj hmask
        obtain rfl := Option.some.inj hcopy
        have hword := getElem?_zero_store hslot (by decide)
        rw [getElem?_zero_store_zero hstore] at hword
        rw [owners_of_getInlMask hset ((getInlMask_eq_getElem? _).trans hword),
          owners_of_zero hzero,
          members_setBitmap (by omega), members_eq_empty_iff.mpr hzero]
      · -- the mask is copied with the slots in front of the new one
        rw [if_pos hzero] at hnode
        obtain ⟨mask, hget, hnode⟩ := Option.bind_eq_some_iff.mp hnode
        obtain ⟨node', hstored, hnode⟩ := Option.bind_eq_some_iff.mp hnode
        obtain ⟨words', hwords', hstored⟩ := Option.bind_eq_some_iff.mp hstored
        obtain rfl := Option.some.inj hstored
        obtain ⟨rfl, rfl⟩ := Prod.mk.inj (Option.some.inj hnode)
        have hk : k ≠ 0 := by
          rw [ruleNum, if_pos hzero, hget] at hnum
          obtain rfl := Option.some.inj hnum
          exact Nat.succ_ne_zero _
        rw [if_pos hk] at hcopy
        obtain ⟨front, hfront, hback⟩ := Option.bind_eq_some_iff.mp hcopy
        have hcount : 0 ≤ countOnes (setBitmap mask pos) pos := by
          rw [countOnes_setBitmap mask (by omega)]
          exact Int.natCast_nonneg _
        rw [memcpyRules, sub_self] at hfront
        rw [memcpyRules] at hback
        have hword := getElem?_zero_store hslot (by omega)
        rw [getElem?_zero_memcpy hback (by omega), getElem?_zero_memcpy_zero hfront (by omega),
          getElem?_zero_store_zero hwords'] at hword
        rw [owners_of_getInlMask hset ((getInlMask_eq_getElem? _).trans hword),
          owners_of_getInlMask hzero hget, members_setBitmap (by omega)]

/-- The mask is copied with the slots. -/
theorem owners_copied {external : Bitmap} {ptr : Option Ptr} {children : List MbNode} {k : ℕ}
    {dst rules : List Nhi} (hnum : ruleNum c = some k)
    (h : (if k ≠ 0 then memcpyRules dst k c.rules k k else some dst) = some rules) :
    owners ⟨external, c.internal, ptr, rules, children⟩ = owners c := by
  by_cases hzero : c.internal = 0#64
  · rw [owners_of_zero (c := c) hzero]
    exact owners_of_zero hzero
  · have hk : k ≠ 0 := by
      rw [ruleNum, if_pos hzero] at hnum
      obtain ⟨mask, -, hk⟩ := Option.bind_eq_some_iff.mp hnum
      obtain rfl := Option.some.inj hk
      exact Nat.succ_ne_zero _
    rw [if_pos hk, memcpyRules, sub_self] at h
    have hword := getElem?_zero_memcpy_zero h (by omega)
    rw [owners, owners, if_neg hzero, if_neg hzero, getInlMask_eq_getElem?, getInlMask_eq_getElem?,
      hword]

/-- `extend_child` leaves the slots. -/
theorem owners_extendChild {slot : ℤ} (h : extendChild m c level pos = some (c', slot, m')) :
    owners c' = owners c := by
  rw [extendChild] at h
  obtain ⟨k, hnum, h⟩ := Option.bind_eq_some_iff.mp h
  obtain ⟨⟨n, m₁⟩, -, h⟩ := Option.bind_eq_some_iff.mp h
  obtain ⟨rules, hrules, h⟩ := Option.bind_eq_some_iff.mp h
  obtain ⟨children, -, h⟩ := Option.bind_eq_some_iff.mp h
  obtain ⟨m₂, -, h⟩ := Option.bind_eq_some_iff.mp h
  obtain ⟨rfl, -⟩ := Prod.mk.inj (Option.some.inj h)
  exact owners_copied hnum hrules

/-! ## Tries without a redundant slot -/

/-- The next hop that a node has for a position. -/
def hop (c : MbNode) (pos : ℕ) : Option Nhi := (pointerToNhi c pos).bind NhiPtr.deref

theorem Packed.hop_eq (h : Packed c f) (hpos : pos ∈ members c.internal) : hop c pos = f pos := by
  obtain ⟨p, hp, hderef⟩ := h.deref hpos
  rw [hop, hp, Option.bind_some, hderef]

/-- No slot of the trie is redundant: the next position in its node has another next hop. -/
inductive Tight : MbNode → Prop
  | intro {c : MbNode} (own : Thrifty (members c.internal) (owners c) (hop c))
      (kids : ∀ pos d, c.kid pos = some d → Tight d) : Tight c

theorem Tight.own (h : Tight c) : Thrifty (members c.internal) (owners c) (hop c) := by
  cases h
  assumption

theorem Tight.kids (h : Tight c) (hd : c.kid pos = some d) : Tight d := by
  cases h with
  | intro _ kids => exact kids pos d hd

theorem tight_zero : Tight .zero := by
  refine .intro ?_ (by simp)
  rw [owners_of_zero rfl]
  exact thrifty_empty _ _

/-- `is_redund` finds the next hop of the next position. -/
theorem isRedund_eq_true (h : Packed c f) (hi : i ∈ members c.internal) (hpi : pos < i)
    (hleast : ∀ k ∈ members c.internal, pos < k → i ≤ k) (hv : f i = some nhi) :
    isRedund c pos nhi = some true := by
  have hmem : i ∈ members ((c.internal >>> (pos + 1)) <<< (pos + 1)) := by
    rw [members_clearBelow]
    exact Finset.mem_filter.mpr ⟨hi, hpi⟩
  have hne : (c.internal >>> (pos + 1)) <<< (pos + 1) ≠ 0#64 := by
    intro hzero
    rw [hzero, members_zero] at hmem
    exact absurd hmem (Finset.notMem_empty i)
  obtain ⟨hidx, hmin⟩ := ctz_spec hne
  have hctz : ctz ((c.internal >>> (pos + 1)) <<< (pos + 1)) = i := by
    rw [members_clearBelow, Finset.mem_filter] at hidx
    exact le_antisymm (hmin i hmem) (hleast _ hidx.1 hidx.2)
  obtain ⟨p, hp, hderef⟩ := h.deref hi
  rw [isRedund, if_neg hne, hctz]
  simp only [hp, hderef, hv, Option.bind_eq_bind, Option.bind_some, beq_self_eq_true]

/-- A new next hop in front of the others. -/
theorem extendRule_tight (hok : m.Succeeds) (hlevel : level < MAX_LEVEL) (h : Compresses c n)
    (ht : Tight c) (hpos : pos < 63) (hfront : ∀ i ∈ members c.internal, pos < i) (nhi : Nhi) :
    ∃ c₁ m₁, extendRule m c pos level nhi = some (c₁, m₁) ∧ Tight c₁ ∧ m₁.op = m.op := by
  have hclear : pos ∉ members c.internal := fun hmem => lt_irrefl _ (hfront pos hmem)
  have hscreen : Screened c pos := fun _ _ i hi hlt => absurd (hfront i hi) (not_lt.mpr hlt.le)
  obtain ⟨c₁, m₁, hcall, hint, hedit⟩ :=
    extendRule_spec hok hlevel h.children_length h.packed hpos hclear (.inr hscreen)
  have hset : members c₁.internal = insert pos (members c.internal) := by
    rw [hint, members_setBitmap (by omega)]
  have hold : Thrifty (members c.internal) (owners c) n.rule :=
    ht.own.congr fun i hi => (h.packed.hop_eq hi).symm
  have hsub := h.packed.shares.subset
  refine ⟨c₁, m₁, hcall, .intro ?_ fun i d hd => ?_, hedit.op⟩
  · refine Thrifty.congr ?_ fun i hi => hedit.packed.hop_eq hi
    rw [hset, owners_extendRule hpos hcall]
    split_ifs with hred
    · exact hold.insert_shared hsub hfront _
    · refine hold.insert_owner hsub hfront fun j hj hmin heq => hred ?_
      exact isRedund_eq_true h.packed hj (hfront j hj) (fun k hk _ => hmin k hk) heq
  · rw [MbNode.kid, hedit.external, hedit.children] at hd
    exact ht.kids hd

theorem hop_putChild (c : MbNode) (pos : ℕ) (d : MbNode) : hop (c.putChild pos d) = hop c := by
  funext i
  have hmask : getInlMask (c.putChild pos d) = getInlMask c := rfl
  rw [hop, hop, pointerToNhi, pointerToNhi, hmask]
  cases getInlMask c <;> rfl

theorem Tight.putChild (h : Tight c) (hlen : c.children.length = (members c.external).card)
    (hmem : pos ∈ members c.external) (hd : Tight d) : Tight (c.putChild pos d) := by
  refine .intro (hop_putChild c pos d ▸ h.own) fun i e he => ?_
  rw [MbNode.kid, MbNode.putChild, lookup_set hlen hmem] at he
  split_ifs at he
  · exact Option.some.inj he ▸ hd
  · exact h.kids he

theorem extendChild_tight (hok : m.Succeeds) (hlevel : level < MAX_LEVEL) (h : Compresses c n)
    (ht : Tight c) (hpos : pos < 64) (hclear : pos ∉ members c.external) :
    ∃ c₁ m₁, extendChild m c level pos = some (c₁, nextChild c₁ pos, m₁) ∧ Tight c₁ ∧
      c₁.children.length = (members c₁.external).card ∧ c₁.kid pos = some .zero ∧ m₁.op = m.op := by
  obtain ⟨c₁, m₁, hcall, hext, hint, hchildren, hpacked, hop⟩ :=
    extendChild_spec hok hlevel h.children_length h.packed hpos
  have hkid : ∀ i, c₁.kid i = if i = pos then some .zero else c.kid i := by
    intro i
    rw [MbNode.kid, hext, hchildren, members_setBitmap hpos, lookup_insert h.children_length hclear]
    rfl
  refine ⟨c₁, m₁, hcall, .intro ?_ fun i d hd => ?_, ?_, by rw [hkid, if_pos rfl], hop⟩
  · rw [hint, owners_extendChild hcall]
    refine ht.own.congr fun i hi => ?_
    rw [h.packed.hop_eq hi, hpacked.hop_eq (hint ▸ hi)]
  · rw [hkid] at hd
    split_ifs at hd
    · exact Option.some.inj hd ▸ tight_zero
    · exact ht.kids hd
  · rw [hchildren, hext, members_setBitmap hpos, Finset.card_insert_of_notMem hclear,
      List.length_insertIdx_of_le_length (h.children_length ▸ rank_le_card _ _), h.children_length]

theorem internal_nodeAt_zero {s : List Bool} (hd : MbNode.zero.nodeAt s = some d) :
    d.internal = 0#64 := by
  rw [MbNode.nodeAt] at hd
  split_ifs at hd
  · cases hd
    rfl
  · rw [kid_zero] at hd
    cases hd

/-- **An insert in front of its node** keeps the trie tight. -/
theorem insertPrefix_tight (hok : m.Succeeds) (h : Compresses c n) (ht : Tight c) {ip : α}
    {s : List Bool} (hip : Spells ip s) (hs : s.length ≤ w) (hlevel : level + w / 6 < MAX_LEVEL)
    (hfront : ∀ d, c.nodeAt (nodeBits s) = some d → ∀ i ∈ members d.internal, leafIdx s < i)
    (nhi : Nhi) :
    ∃ c₁ m₁ ret, insertPrefix m c ip s.length level nhi = some (c₁, m₁, ret) ∧ Tight c₁ := by
  induction s using stride_induction generalizing m c n w ip level with
  | leaf s hlt =>
      rw [nodeBits_of_lt hlt, leafIdx_of_lt hlt] at hfront
      replace hfront := hfront c (nodeAt_nil c)
      have hlevel₀ : level < MAX_LEVEL := by omega
      obtain ⟨c₁, m₁, hcall, htight, -⟩ :=
        extendRule_tight hok hlevel₀ h ht (inlPos_lt_bits hlt) hfront nhi
      refine ⟨c₁, m₁, 0, ?_, htight⟩
      have htest : ¬ testBitmap c.internal (inlPos s) := fun htest =>
        lt_irrefl _ (hfront _ (testBitmap_iff.mp htest))
      rw [insertPrefix_of_lt hip hlt, if_neg htest, hcall]
      rfl
  | inner t s htl ih =>
      have hlevel₀ : level < MAX_LEVEL := by omega
      rw [List.length_append, htl] at hs
      have hlevel₁ : level + 1 + (w - 6) / 6 < MAX_LEVEL := by omega
      rw [nodeBits_append htl, leafIdx_append htl] at hfront
      by_cases hmem : value t ∈ members c.external
      · obtain ⟨e, he⟩ := TreeBitmap.exists_kid h.layout (h.external ▸ hmem)
        obtain ⟨d, hd, hde⟩ := h.exists_kid he
        obtain ⟨d₁, m₂, ret, hrec, htight⟩ := ih hok hde (ht.kids hd) (hip.lshift_append htl)
          (by omega) hlevel₁ fun d' hd' => hfront d' (by rw [nodeAt_append htl, hd]; exact hd')
        have henter : (if testBitmap c.external (value t) then some (c, nextChild c (value t), m)
            else extendChild m c level (value t)) = some (c, nextChild c (value t), m) :=
          if_pos (testBitmap_iff.mpr hmem)
        exact ⟨_, m₂, ret, insertPrefix_append htl hip hlevel₀ henter h.children_length hd hrec,
          ht.putChild h.children_length hmem htight⟩
      · have hlt : value t < 64 := by
          have := value_lt t
          rwa [htl] at this
        obtain ⟨c₁, m₁, hcall, htight₁, hlen, hkid, hop⟩ :=
          extendChild_tight hok hlevel₀ h ht hlt hmem
        obtain ⟨d₁, m₂, ret, hrec, htight⟩ := ih (hok.of_op_eq hop) compresses_zero tight_zero
          (hip.lshift_append htl) (by omega) hlevel₁ fun d' hd' i hi => by
            rw [internal_nodeAt_zero hd', members_zero] at hi
            exact absurd hi (Finset.notMem_empty i)
        have henter : (if testBitmap c.external (value t) then some (c, nextChild c (value t), m)
            else extendChild m c level (value t)) = some (c₁, nextChild c₁ (value t), m₁) := by
          rw [if_neg fun htest => hmem (testBitmap_iff.mp htest), hcall]
        exact ⟨_, m₂, ret, insertPrefix_append htl hip hlevel₀ henter hlen hkid hrec,
          htight₁.putChild hlen (mem_of_kid hkid) htight⟩

/-! ## Runs -/

section Loads

variable {T : Stored IpV4} {st st' : MbNode × Mm}

/-- What both builds store. -/
theorem Agree.card_le (h : Agree st st' T) (hnull : ∀ v ∈ T.values, v ≠ 0) :
    (slotNhis 0 st.1).card ≤ T.values.card ∧
      T.values.card ≤ (slotNhis 0 st.1).card + T.repeats.card := by
  have hle := h.compresses.card_slotNhis_le 0
  rw [← h.mirrors.nhis] at hnull ⊢
  have hge := h.compresses.card_nhis_le h.mirrors.wf hnull
  rw [h.mirrors.get, redundancy_table] at hge
  exact ⟨hle, hge⟩

/-- The nodes of both builds correspond. -/
theorem Compresses.nodeAt {s : List Bool} (h : Compresses c n) {k : ℕ} (hs : s.length = 6 * k)
    (hd : c.nodeAt s = some d) : ∃ e, n.nodeAt s = some e ∧ Compresses d e := by
  induction k generalizing c n s with
  | zero =>
      obtain rfl := List.length_eq_zero_iff.mp hs
      rw [nodeAt_nil] at hd ⊢
      exact ⟨n, rfl, Option.some.inj hd ▸ h⟩
  | succ k ih =>
      obtain ⟨t, u, ht, rfl⟩ : ∃ t u : List Bool, t.length = 6 ∧ t ++ u = s :=
        ⟨s.take 6, s.drop 6, by rw [List.length_take]; omega, List.take_append_drop 6 s⟩
      rw [nodeAt_append ht] at hd ⊢
      obtain ⟨c', hc', hd⟩ := Option.bind_eq_some_iff.mp hd
      have hmem : value t ∈ members n.external := h.external ▸ mem_of_kid hc'
      obtain ⟨n', hn'⟩ := TreeBitmap.exists_kid h.layout hmem
      rw [List.length_append] at hs
      rw [hn']
      exact ih (h.kids hc' hn') (by omega) hd

theorem length_nodeBits (s : List Bool) : (nodeBits s).length = 6 * (s.length / 6) := by
  rw [nodeBits, STRIDE_eq, List.length_take]
  omega

theorem nodeBits_append_of_lt {t u : List Bool} {k : ℕ} (ht : t.length = 6 * k)
    (hu : u.length < 6) : nodeBits (t ++ u) = t ∧ leafIdx (t ++ u) = inlPos u := by
  have hdiv : (6 * k + u.length) / 6 * 6 = t.length := by omega
  rw [nodeBits, leafIdx, STRIDE_eq, List.length_append, ht, hdiv, List.take_left, List.drop_left]
  exact ⟨rfl, rfl⟩

/-- The prefix comes before all stored prefixes of its node. -/
def InFront (T : Stored IpV4) (p : Prefix IpV4) : Prop :=
  ∀ q ∈ T, nodeBits p.bits = nodeBits q.bits → Precedes p.bits q.bits

theorem Agree.inFront (h : Agree st st' T) {p : Prefix IpV4} (hp : InFront T p) (d : MbNode)
    (hd : st.1.nodeAt (nodeBits p.bits) = some d) :
    ∀ i ∈ members d.internal, leafIdx p.bits < i := by
  intro i hi
  have hlen := length_nodeBits p.bits
  obtain ⟨e, he, hde⟩ := h.compresses.nodeAt hlen hd
  obtain ⟨hwf, hget, -⟩ := nodeAt_spec h.mirrors.wf hlen he
  rw [hde.internal] at hi
  obtain ⟨u, hu, rfl⟩ := exists_inlPos_of_mem hwf hi
  have hne := (marks_internal hwf.layout.rules_length u hu).mp hi
  rw [hget, below_apply, h.mirrors.get] at hne
  obtain ⟨v, hv⟩ := Option.ne_none_iff_exists'.mp hne
  obtain ⟨q, hq, hlookup⟩ := exists_prefix_of_table hv
  obtain ⟨hnode, hleaf⟩ := nodeBits_append_of_lt hlen hu
  rw [← hq] at hnode hleaf
  exact hleaf ▸ (hp q (Finmap.mem_of_lookup_eq_some hlookup) hnode.symm).2

/-- An insert in front of its node is harmless. -/
theorem Agree.harmless (h : Agree st st' T) {p : Prefix IpV4} (hp : InFront T p) (nhi : Nhi) :
    Harmless st.1 (.insert p nhi) := by
  intro d hd
  have hfront := h.inFront hp d hd
  have htest : ¬ testBitmap d.internal (leafIdx p.bits) := fun htest =>
    lt_irrefl _ (hfront _ (testBitmap_iff.mp htest))
  rw [InsertFits, if_neg htest]
  exact .inr fun _ _ i hi hlt => absurd (hfront i hi) (not_lt.mpr hlt.le)

/-- **A load step**: the builds stay in step, and the trie stays tight. -/
theorem Agree.load (h : Agree st st' T) (ht : Tight st.1) {p : Prefix IpV4} (hp : InFront T p)
    (nhi : Nhi) : ∃ st₁ st₁', bitmapStep st (.insert p nhi) = some st₁ ∧
      TreeBitmap.bitmapStep st' (.insert p nhi) = some st₁' ∧
      Agree st₁ st₁' (T.insert p nhi) ∧ Tight st₁.1 := by
  have hlegal : (storedMachine IpV4).legal T (.insert p nhi) := trivial
  obtain ⟨st₁, st₁', hstep, hstep', hagree⟩ := h.step hlegal (h.harmless hp nhi)
  refine ⟨st₁, st₁', hstep, hstep', hagree, ?_⟩
  have hlen : p.bits.length ≤ IpAddr.LENGTH IpV4 := p.length_bits ▸ p.cidr_le
  obtain ⟨c₁, m₁, ret, hcall, htight⟩ := insertPrefix_tight h.succeeds h.compresses ht p.spells hlen
    (level_zero IpV4) (h.inFront hp) nhi
  rw [p.length_bits] at hcall
  have hst : (c₁, m₁) = st₁ := by
    rw [bitmapStep, bitmapInsertPrefix, hcall] at hstep
    exact Option.some.inj hstep
  exact hst ▸ htight

/-- The prefixes come one by one, each in front of those of its node that are there. -/
def Descending (l : List (Prefix IpV4 × Nhi)) : Prop :=
  l.Pairwise fun e e' => nodeBits e'.1.bits = nodeBits e.1.bits → Precedes e'.1.bits e.1.bits

/-- The inserts of a load. -/
def loadOps (l : List (Prefix IpV4 × Nhi)) : List (Op IpV4) := l.map fun e => .insert e.1 e.2

/-- **A whole load.** -/
theorem Agree.loads {l : List (Prefix IpV4 × Nhi)} (hl : Descending l)
    (h : Agree st st' T) (ht : Tight st.1) (hfront : ∀ e ∈ l, InFront T e.1) :
    ∃ st₁ st₁', (loadOps l).foldlM bitmapStep st = some st₁ ∧
      (loadOps l).foldlM TreeBitmap.bitmapStep st' = some st₁' ∧
      Agree st₁ st₁' ((storedMachine IpV4).exec T (loadOps l)) ∧ Tight st₁.1 := by
  induction l generalizing st st' T with
  | nil => exact ⟨st, st', rfl, rfl, h, ht⟩
  | cons e l ih =>
      obtain ⟨he, hl⟩ := List.pairwise_cons.mp hl
      obtain ⟨st₁, st₁', hstep, hstep', h₁, ht₁⟩ := h.load ht (hfront e List.mem_cons_self) e.2
      have hfront₁ : ∀ e' ∈ l, InFront (T.insert e.1 e.2) e'.1 := by
        intro e' he' q hq hnode
        rcases Finmap.mem_insert.mp hq with rfl | hq
        · exact he e' he' hnode
        · exact hfront e' (List.mem_cons_of_mem e he') q hq hnode
      obtain ⟨st₂, st₂', hrun, hrun', h₂, ht₂⟩ := ih hl h₁ ht₁ hfront₁
      refine ⟨st₂, st₂', ?_, ?_, h₂, ht₂⟩
      · rw [loadOps, List.map_cons, List.foldlM_cons, hstep]
        exact hrun
      · rw [loadOps, List.map_cons, List.foldlM_cons, hstep']
        exact hrun'

/-- A load stores all its prefixes. -/
theorem values_exec_loadOps {l : List (Prefix IpV4 × Nhi)} (hl : Descending l)
    (hT : ∀ e ∈ l, e.1 ∉ T) :
    Stored.values ((storedMachine IpV4).exec T (loadOps l)) = T.values + l.map Prod.snd := by
  induction l generalizing T with
  | nil => exact (add_zero _).symm
  | cons e l ih =>
      obtain ⟨he, hl⟩ := List.pairwise_cons.mp hl
      have hT' : ∀ e' ∈ l, e'.1 ∉ T.insert e.1 e.2 := by
        intro e' he' hmem
        rcases Finmap.mem_insert.mp hmem with heq | hmem
        · exact lt_irrefl _ (heq ▸ (he e' he' (by rw [heq])).2)
        · exact hT e' (List.mem_cons_of_mem e he') hmem
      refine (ih hl hT').trans ?_
      rw [values_insert_of_notMem (hT e List.mem_cons_self), List.map_cons, ← Multiset.cons_coe,
        Multiset.cons_add, Multiset.add_cons]

/-- The bits of an IPv4 prefix are its address without the host bits. -/
theorem toNat_ip (p : Prefix IpV4) : p.ip.toNat = value p.bits * 2 ^ (32 - p.cidr) := by
  have hval : value (IpAddr.bits p.ip) = p.ip.toNat := value_ofBitVec p.ip
  have hlen : (List.replicate (IpAddr.LENGTH IpV4 - p.bits.length) false).length = 32 - p.cidr := by
    rw [List.length_replicate, p.length_bits]
    rfl
  rw [← hval, p.spells, value_append, value_replicate_false, hlen, add_zero]

/-- Longest prefixes first, and the highest addresses first among those of one length. -/
theorem descending_of_sorted {l : List (Prefix IpV4 × Nhi)} (h : l.Pairwise fun e e' =>
    e'.1.cidr < e.1.cidr ∨ e'.1.cidr = e.1.cidr ∧ e'.1.ip.toNat < e.1.ip.toNat) : Descending l := by
  refine h.imp fun {e e'} hlt hnode => ⟨hnode, ?_⟩
  have split : ∀ p : Prefix IpV4, p.bits = nodeBits p.bits ++ p.bits.drop (p.cidr / 6 * 6) := by
    intro p
    rw [nodeBits, STRIDE_eq, p.length_bits, List.take_append_drop]
  have hlen := congrArg List.length hnode
  rw [length_nodeBits, length_nodeBits, Prefix.length_bits, Prefix.length_bits] at hlen
  have hcidr : e'.1.cidr / 6 = e.1.cidr / 6 := by omega
  have hleaf : ∀ p : Prefix IpV4, leafIdx p.bits = inlPos (p.bits.drop (p.cidr / 6 * 6)) := by
    intro p
    rw [leafIdx, STRIDE_eq, p.length_bits]
  rw [hleaf, hleaf, hcidr]
  rcases hlt with hlt | ⟨heq, hlt⟩
  · apply inlPos_lt_inlPos
    rw [List.length_drop, List.length_drop, Prefix.length_bits, Prefix.length_bits]
    omega
  · have hvalue : value e'.1.bits < value e.1.bits := by
      rw [toNat_ip, toNat_ip, heq] at hlt
      exact Nat.lt_of_mul_lt_mul_right hlt
    have hrest : (e'.1.bits.drop (e.1.cidr / 6 * 6)).length =
        (e.1.bits.drop (e.1.cidr / 6 * 6)).length := by
      rw [List.length_drop, List.length_drop, Prefix.length_bits, Prefix.length_bits, heq]
    have hv' := congrArg value (split e'.1)
    have hv := congrArg value (split e.1)
    rw [value_append, hnode, hcidr, hrest] at hv'
    rw [value_append] at hv
    have e₁ := inlPos_eq (e'.1.bits.drop (e.1.cidr / 6 * 6))
    have e₂ := inlPos_eq (e.1.bits.drop (e.1.cidr / 6 * 6))
    rw [hrest] at e₁
    omega

end Loads

/-- **What sharing saves**: after a run of harmless updates the `COMPRESS_NHI` build has no more
slots than there are stored prefixes, and falls short of them by no more than `bitmap_redund_rule`
counts in the plain build, if no next hop is `NULL`. -/
theorem bitmap_run_saves {m m' : Mm} (hm : m.Succeeds) (hm' : m'.Succeeds) {ops : List (Op IpV4)}
    (hops : (storedMachine IpV4).Legal ∅ ops)
    (hfit : Run.Guarded bitmapStep (fun st op => Harmless st.1 op) (.zero, m) ops) :
    ∃ st st' T, ops.foldlM bitmapStep (.zero, m) = some st ∧
      ops.foldlM TreeBitmap.bitmapStep (.zero, m') = some st' ∧
      T = (storedMachine IpV4).exec ∅ ops ∧
      bitmapRedundRule st'.1 0 LENGTH 0 0 = some (BitVec.ofNat 32 T.repeats.card) ∧
      (slotNhis 0 st.1).card ≤ T.values.card ∧
      ((∀ v ∈ T.values, v ≠ 0) →
        T.values.card ≤ (slotNhis 0 st.1).card + T.repeats.card) := by
  obtain ⟨st, st', hrun, hrun', h⟩ :=
    Run.Machine.lockstep (R := Agree) (fun st op => Harmless st.1 op)
      (fun _ _ _ _ h hlegal hfit => Agree.step h hlegal hfit) (agree_zero hm hm') hops hfit
  refine ⟨st, st', _, hrun, hrun', rfl, ?_, ?_, fun hnull => (h.card_le hnull).2⟩
  · rw [h.mirrors.bitmapRedundRule]
    exact congrArg some (BitVec.zero_add _)
  · rw [← h.mirrors.nhis]
    exact h.compresses.card_slotNhis_le 0

/-- Two prefixes with one slot. -/
theorem bitmap_run_saves_halves :
    ∃ st st' T, [Op.insert upperHalf 1, .insert lowerHalf 1].foldlM bitmapStep
        (.zero, mmInit simple) = some st ∧
      [Op.insert upperHalf 1, .insert lowerHalf 1].foldlM TreeBitmap.bitmapStep
        (.zero, mmInit simple) = some st' ∧
      T = (storedMachine IpV4).exec ∅ [Op.insert upperHalf 1, .insert lowerHalf 1] ∧
      bitmapRedundRule st'.1 0 LENGTH 0 0 = some (BitVec.ofNat 32 T.repeats.card) ∧
      (slotNhis 0 st.1).card ≤ T.values.card ∧
      T.values.card ≤ (slotNhis 0 st.1).card + T.repeats.card := by
  have hops : (storedMachine IpV4).Legal ∅ [Op.insert upperHalf 1, .insert lowerHalf 1] :=
    ⟨trivial, trivial, trivial⟩
  have hlower : lowerHalf ∉ (∅ : Stored IpV4).insert upperHalf 1 := by decide
  have hvalues : ((storedMachine IpV4).exec ∅
      [Op.insert upperHalf 1, .insert lowerHalf 1]).values = {1, 1} := by
    change Stored.values (((∅ : Stored IpV4).insert upperHalf 1).insert lowerHalf 1) = _
    rw [values_insert_of_notMem hlower, values_insert_of_notMem Finmap.notMem_empty]
    rfl
  obtain ⟨st, st', T, hrun, hrun', rfl, hredund, hle, hsaved⟩ :=
    bitmap_run_saves succeeds_mmInit_simple succeeds_mmInit_simple hops
      (guarded_halves succeeds_mmInit_simple)
  refine ⟨st, st', _, hrun, hrun', rfl, hredund, hle, hsaved ?_⟩
  rw [hvalues]
  simp

end CompressNhi

end TreeBitmap
