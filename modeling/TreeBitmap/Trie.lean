import TreeBitmap.Stride
import TreeBitmap.Bitmap
import Mathlib.Data.Nat.Log
import Mathlib.Tactic.Abel

/-!
# Tries as tables

A trie assigns next hops to bit strings: a string of fewer than `STRIDE` bits is
looked up in the node itself, a longer one in the child its first `STRIDE` bits
name.  This module defines that table, the well-formedness that every operation
keeps, and the two collections a trie carries along: its next hops and its blocks.

## Main definitions

* `MbNode.get` — the table of a trie.
* `MbNode.Wf w` — well-formedness of a trie with `w` address bits left.
* `MbNode.nhis`, `MbNode.blocks` — everything stored, everything allocated.
* `Spells ip s` — the address `ip` is the string `s`, followed by zeros.
-/

namespace TreeBitmap

open BitString LongestMatch Ranked Ledger

/-! ## The table of a trie -/

/-- The next hop a trie holds for a bit string. -/
def MbNode.get (n : MbNode) (s : List Bool) : Option Nhi :=
  if s.length < 6 then n.rule (inlPos s)
  else (n.kid (value (s.take 6))).bind fun c => c.get (s.drop 6)
termination_by s.length
decreasing_by
  rw [List.length_drop]
  omega

theorem MbNode.get_of_lt {n : MbNode} {s : List Bool} (h : s.length < 6) :
    n.get s = n.rule (inlPos s) := by
  rw [MbNode.get, if_pos h]

theorem MbNode.get_append {n : MbNode} {t : List Bool} (ht : t.length = 6) (s : List Bool) :
    n.get (t ++ s) = (n.kid (value t)).bind fun c => c.get s := by
  rw [MbNode.get, if_neg (by rw [List.length_append]; omega), ← ht, List.take_left,
    List.drop_left]

/-- Below the string of a child lies the table of the child. -/
theorem below_get {n c : MbNode} {t : List Bool} (ht : t.length = 6)
    (hc : n.kid (value t) = some c) : below n.get t = c.get := by
  funext s
  rw [below_apply, MbNode.get_append ht, hc]
  rfl

theorem below_get_of_none {n : MbNode} {t : List Bool} (ht : t.length = 6)
    (hc : n.kid (value t) = none) : below n.get t = fun _ => none := by
  funext s
  rw [below_apply, MbNode.get_append ht, hc]
  rfl

@[simp] theorem kid_zero (pos : ℕ) : MbNode.zero.kid pos = none := by
  rw [MbNode.kid, MbNode.external_zero, members_zero, lookup_of_notMem]
  simp

@[simp] theorem rule_zero (pos : ℕ) : MbNode.zero.rule pos = none := by
  rw [MbNode.rule, MbNode.internal_zero, members_zero, lookup_of_notMem]
  simp

@[simp] theorem get_zero (s : List Bool) : MbNode.zero.get s = none := by
  rw [MbNode.get]
  split_ifs <;> simp

/-- The strings of a node are the set positions of its internal bitmap. -/
theorem marks_internal {n : MbNode} (hn : n.rules.length = (members n.internal).card) :
    Marks n.internal n.get := by
  intro t ht
  rw [MbNode.get_of_lt ht, ne_eq, MbNode.rule, lookup_eq_none_iff hn, not_not]

/-! ## Well-formed tries -/

/-- A trie with `w` address bits left: the arrays fit the bitmaps, no string is
longer than `w`, and no child is empty. -/
inductive MbNode.Wf : ℕ → MbNode → Prop
  | intro {w : ℕ} {n : MbNode} (layout : n.Layout)
      (internal : ∀ pos ∈ members n.internal, pos + 1 < 2 ^ (min w 5 + 1))
      (external : w < 6 → members n.external = ∅)
      (kids : ∀ pos c, n.kid pos = some c → MbNode.Wf (w - 6) c)
      (full : ∀ pos c, n.kid pos = some c → c.isEmpty = false) : MbNode.Wf w n

namespace MbNode.Wf

variable {w : ℕ} {n : MbNode}

theorem layout (h : n.Wf w) : n.Layout := by
  cases h
  assumption

theorem internal (h : n.Wf w) {pos : ℕ} (hpos : pos ∈ members n.internal) :
    pos + 1 < 2 ^ (min w 5 + 1) := by
  cases h with
  | intro _ hint _ _ _ => exact hint pos hpos

theorem external (h : n.Wf w) (hw : w < 6) : members n.external = ∅ := by
  cases h with
  | intro _ _ hext _ _ => exact hext hw

theorem kids (h : n.Wf w) {pos : ℕ} {c : MbNode} (hc : n.kid pos = some c) : c.Wf (w - 6) := by
  cases h with
  | intro _ _ _ hkids _ => exact hkids pos c hc

theorem full (h : n.Wf w) {pos : ℕ} {c : MbNode} (hc : n.kid pos = some c) :
    c.isEmpty = false := by
  cases h with
  | intro _ _ _ _ hfull => exact hfull pos c hc

theorem kids_of_mem (h : n.Wf w) {c : MbNode} (hc : c ∈ n.children) : c.Wf (w - 6) := by
  obtain ⟨pos, -, hpos⟩ := exists_lookup_eq h.layout.children_length hc
  exact h.kids hpos

end MbNode.Wf

theorem wf_zero (w : ℕ) : MbNode.zero.Wf w :=
  .intro layout_zero
    (by
      intro pos hpos
      rw [MbNode.internal_zero, members_zero] at hpos
      simp at hpos)
    (fun _ => members_zero) (by simp) (by simp)

theorem inlPos_add_one_lt {t : List Bool} {k : ℕ} (ht : t.length ≤ k) :
    inlPos t + 1 < 2 ^ (k + 1) := by
  have hpow : 2 ^ t.length ≤ 2 ^ k := Nat.pow_le_pow_right (by decide) ht
  have hv := value_lt t
  have he := inlPos_eq t
  rw [pow_succ]
  omega

/-- Every position belongs to a string. -/
theorem exists_inlPos_eq {pos k : ℕ} (hpos : pos + 1 < 2 ^ (k + 1)) :
    ∃ t : List Bool, t.length ≤ k ∧ inlPos t = pos := by
  have hlow : 2 ^ Nat.log 2 (pos + 1) ≤ pos + 1 := Nat.pow_log_le_self 2 (by omega)
  have hhigh : pos + 1 < 2 ^ (Nat.log 2 (pos + 1) + 1) := Nat.lt_pow_succ_log_self (by decide) _
  have hlen : Nat.log 2 (pos + 1) < k + 1 := Nat.log_lt_of_lt_pow (by omega) hpos
  obtain ⟨t, ht, hval⟩ := exists_value_eq (v := pos + 1 - 2 ^ Nat.log 2 (pos + 1))
    (k := Nat.log 2 (pos + 1)) (by rw [pow_succ] at hhigh; omega)
  refine ⟨t, by omega, ?_⟩
  have he := inlPos_eq t
  rw [ht, hval] at he
  omega

theorem kid_eq_none_of_lt {w pos : ℕ} {n : MbNode} (h : n.Wf w) (hw : w < 6) :
    n.kid pos = none := by
  rw [MbNode.kid, h.external hw, lookup_of_notMem (Finset.notMem_empty _)]

theorem MbNode.Wf.le_of_kid {w pos : ℕ} {n c : MbNode} (h : n.Wf w) (hc : n.kid pos = some c) :
    6 ≤ w := by
  by_contra hlt
  rw [kid_eq_none_of_lt h (by omega)] at hc
  cases hc

/-- No string is longer than the bits that are left. -/
theorem get_eq_none_of_lt {w : ℕ} {n : MbNode} (h : n.Wf w) {s : List Bool}
    (hs : w < s.length) : n.get s = none := by
  induction s using stride_induction generalizing n w with
  | leaf s hlt =>
      rw [MbNode.get_of_lt hlt, MbNode.rule, lookup_of_notMem]
      intro hpos
      have hbound := h.internal hpos
      have hpow : 2 ^ (min w 5 + 1) ≤ 2 ^ s.length := Nat.pow_le_pow_right (by decide) (by omega)
      have he := inlPos_eq s
      omega
  | inner t s ht ih =>
      rw [MbNode.get_append ht]
      rcases hc : n.kid (value t) with _ | c
      · rfl
      · have hw := h.le_of_kid hc
        rw [List.length_append, ht] at hs
        exact ih (h.kids hc) (by omega)

theorem MbNode.Wf.length_le {w : ℕ} {n : MbNode} (h : n.Wf w) {s : List Bool} {v : Nhi}
    (hv : n.get s = some v) : s.length ≤ w := by
  by_contra hlt
  rw [get_eq_none_of_lt h (by omega)] at hv
  cases hv

/-- A node without positions holds nothing. -/
theorem isEmpty_iff {n : MbNode} :
    n.isEmpty ↔ members n.internal = ∅ ∧ members n.external = ∅ := by
  rw [MbNode.isEmpty, Bool.and_eq_true, beq_iff_eq, beq_iff_eq, members_eq_empty_iff,
    members_eq_empty_iff]

theorem isEmpty_internal {n : MbNode} (h : n.isEmpty) : n.internal = 0 :=
  members_eq_empty_iff.mp (isEmpty_iff.mp h).1

theorem isEmpty_external {n : MbNode} (h : n.isEmpty) : n.external = 0 :=
  members_eq_empty_iff.mp (isEmpty_iff.mp h).2

/-- **A node that is not empty holds a string.** -/
theorem exists_get_ne_none {w : ℕ} {n : MbNode} (h : n.Wf w) (hne : n.isEmpty = false) :
    ∃ s, n.get s ≠ none := by
  induction w using Nat.strong_induction_on generalizing n with
  | _ w ih =>
      rcases Finset.eq_empty_or_nonempty (members n.internal) with hint | ⟨pos, hpos⟩
      · rcases Finset.eq_empty_or_nonempty (members n.external) with hext | ⟨pos, hpos⟩
        · have := isEmpty_iff.mpr ⟨hint, hext⟩
          rw [hne] at this
          cases this
        · obtain ⟨c, hc⟩ := exists_kid h.layout hpos
          have hw := h.le_of_kid hc
          obtain ⟨s, hs⟩ := ih (w - 6) (by omega) (h.kids hc) (h.full hc)
          obtain ⟨t, ht, rfl⟩ := exists_value_eq (v := pos) (k := 6) (lt_of_mem_members hpos)
          refine ⟨t ++ s, ?_⟩
          rwa [MbNode.get_append ht, hc]
      · obtain ⟨t, ht, rfl⟩ := exists_inlPos_eq (h.internal hpos)
        exact ⟨t, (marks_internal h.layout.rules_length t (by omega)).mp hpos⟩

/-! ## Updates of a table, stride by stride -/

/-- An update below one string of six bits is an update of the whole. -/
theorem get_eq_update {n n' : MbNode} {t s : List Bool} {x : Option Nhi} (ht : t.length = 6)
    (hshort : ∀ u : List Bool, u.length < 6 → n'.get u = n.get u)
    (hother : ∀ u : List Bool, u.length = 6 → u ≠ t → below n'.get u = below n.get u)
    (hbelow : below n'.get t = Function.update (below n.get t) s x) :
    n'.get = Function.update n.get (t ++ s) x := by
  funext u
  by_cases hu : u.length < 6
  · have hne : u ≠ t ++ s := by
      intro h
      rw [h, List.length_append] at hu
      omega
    rw [hshort u hu, Function.update_of_ne hne]
  · have hlen : (u.take 6).length = 6 := by
      rw [List.length_take]
      omega
    obtain ⟨a, b, ha, rfl⟩ : ∃ a b : List Bool, a.length = 6 ∧ a ++ b = u :=
      ⟨u.take 6, u.drop 6, hlen, List.take_append_drop 6 u⟩
    by_cases hat : a = t
    · subst hat
      have := congrFun hbelow b
      rw [below_apply] at this
      rw [this]
      by_cases hb : b = s
      · subst hb
        simp
      · rw [Function.update_of_ne hb, below_apply, Function.update_of_ne]
        exact fun h => hb (List.append_cancel_left h)
    · have hne : a ++ b ≠ t ++ s := by
        intro h
        exact hat (List.append_inj_left h (ha.trans ht.symm))
      have := congrFun (hother a ha hat) b
      rw [below_apply, below_apply] at this
      rw [this, Function.update_of_ne hne]

/-- The same for a string of the node itself. -/
theorem get_eq_update_of_lt {n n' : MbNode} {s : List Bool} {x : Option Nhi} (hs : s.length < 6)
    (hrule : ∀ i, n'.rule i = if i = inlPos s then x else n.rule i)
    (hkid : ∀ i, n'.kid i = n.kid i) : n'.get = Function.update n.get s x := by
  funext u
  by_cases hu : u.length < 6
  · rw [MbNode.get_of_lt hu, hrule]
    by_cases hus : u = s
    · rw [if_pos (by rw [hus]), hus, Function.update_self]
    · rw [if_neg fun h => hus (inlPos_injective h), Function.update_of_ne hus,
        MbNode.get_of_lt hu]
  · have hne : u ≠ s := by
      intro h
      exact hu (h ▸ hs)
    rw [Function.update_of_ne hne, MbNode.get, MbNode.get, if_neg hu, if_neg hu, hkid]

/-! ## What a trie carries -/

section Collect

variable {β : Type}

/-- Everything the nodes of a trie contribute, each given its level. -/
def MbNode.collect (f : ℕ → MbNode → Multiset β) (level : ℕ) (n : MbNode) : Multiset β :=
  f level n + (n.children.attach.map fun c => c.1.collect f (level + 1)).sum
termination_by sizeOf n
decreasing_by exact MbNode.sizeOf_lt_of_mem c.2

theorem collect_eq (f : ℕ → MbNode → Multiset β) (level : ℕ) (n : MbNode) :
    n.collect f level = f level n + (n.children.map (MbNode.collect f (level + 1))).sum := by
  rw [MbNode.collect, List.attach_map_val (f := MbNode.collect f (level + 1))]

/-- What the children contribute. -/
def MbNode.inner (f : ℕ → MbNode → Multiset β) (level : ℕ) (n : MbNode) : Multiset β :=
  (n.children.map (MbNode.collect f (level + 1))).sum

variable {f : ℕ → MbNode → Multiset β} {level pos : ℕ} {n c : MbNode}

theorem collect_eq_inner : n.collect f level = f level n + n.inner f level := collect_eq f level n

@[simp] theorem inner_withRule (ptr : Option Ptr) (nhi : Nhi) :
    (n.withRule ptr pos nhi).inner f level = n.inner f level := rfl

@[simp] theorem inner_withoutRule (ptr : Option Ptr) :
    (n.withoutRule ptr pos).inner f level = n.inner f level := rfl

@[simp] theorem inner_putRule (nhi : Nhi) :
    (n.putRule pos nhi).inner f level = n.inner f level := rfl

theorem inner_withChild (hn : n.Layout) (ptr : Option Ptr) :
    (n.withChild ptr pos).inner f level =
      MbNode.zero.collect f (level + 1) + n.inner f level := by
  have hperm := (List.perm_insertIdx MbNode.zero n.children
    (hn.children_length ▸ rank_le_card (members n.external) pos)).map (MbNode.collect f (level + 1))
  simp only [MbNode.inner, MbNode.withChild]
  rw [hperm.sum_eq, List.map_cons, List.sum_cons]

variable (f level) in
/-- What the other children contribute stays, whatever becomes of one child. -/
theorem exists_inner_eq_of_length (hlen : n.children.length = (members n.external).card)
    (hc : n.kid pos = some c) :
    ∃ rest, n.inner f level = c.collect f (level + 1) + rest ∧
      (∀ c', (n.putChild pos c').inner f level = c'.collect f (level + 1) + rest) ∧
      ∀ ptr, (n.withoutChild ptr pos).inner f level = rest := by
  set r := rank (members n.external) pos with hr
  have hmem := mem_of_kid hc
  have hlt : r < n.children.length := hlen ▸ rank_lt_card hmem
  have hget : n.children[r] = c := by
    rw [MbNode.kid, lookup_of_mem hmem, List.getElem?_eq_getElem hlt] at hc
    exact Option.some.inj hc
  refine ⟨((n.children.eraseIdx r).map (MbNode.collect f (level + 1))).sum, ?_, fun c' => ?_,
    fun ptr => rfl⟩
  · have hperm := (List.getElem_cons_eraseIdx_perm hlt).map (MbNode.collect f (level + 1))
    rw [MbNode.inner, ← hperm.sum_eq, hget, List.map_cons, List.sum_cons]
  · have hperm := (List.set_perm_cons_eraseIdx hlt c').map (MbNode.collect f (level + 1))
    simp only [MbNode.inner, MbNode.putChild]
    rw [hperm.sum_eq, List.map_cons, List.sum_cons]

variable (f level) in
theorem exists_inner_eq (hn : n.Layout) (hc : n.kid pos = some c) :
    ∃ rest, n.inner f level = c.collect f (level + 1) + rest ∧
      (∀ c', (n.putChild pos c').inner f level = c'.collect f (level + 1) + rest) ∧
      ∀ ptr, (n.withoutChild ptr pos).inner f level = rest :=
  exists_inner_eq_of_length f level hn.children_length hc

end Collect

/-- The next hops of a node, with multiplicity. -/
def MbNode.ownNhis (_ : ℕ) (n : MbNode) : Multiset Nhi := n.rules

/-- The next hops stored in a trie. -/
def MbNode.nhis : ℕ → MbNode → Multiset Nhi := MbNode.collect MbNode.ownNhis

/-- The blocks that belong to the nodes of a trie. -/
def MbNode.blocks : ℕ → MbNode → Multiset Block := MbNode.collect MbNode.own

theorem nhis_eq (level : ℕ) (n : MbNode) :
    n.nhis level = n.ownNhis level + n.inner MbNode.ownNhis level := collect_eq_inner

theorem blocks_eq (level : ℕ) (n : MbNode) :
    n.blocks level = n.own level + n.inner MbNode.own level := collect_eq_inner

@[simp] theorem inner_zero {β : Type} (f : ℕ → MbNode → Multiset β) (level : ℕ) :
    MbNode.zero.inner f level = 0 := rfl

@[simp] theorem nhis_zero (level : ℕ) : MbNode.zero.nhis level = 0 := by
  rw [nhis_eq, inner_zero]
  rfl

@[simp] theorem blocks_zero (level : ℕ) : MbNode.zero.blocks level = 0 := by
  rw [blocks_eq, inner_zero, own_zero]
  rfl

theorem ownNhis_withRule {n : MbNode} (hn : n.Layout) (ptr : Option Ptr) (pos level : ℕ)
    (nhi : Nhi) : (n.withRule ptr pos nhi).ownNhis level = n.ownNhis level + {nhi} := by
  have hperm := List.perm_insertIdx nhi n.rules
    (hn.rules_length ▸ rank_le_card (members n.internal) pos)
  rw [add_comm]
  exact Multiset.coe_eq_coe.mpr hperm

/-- The other next hops of a node stay, whatever becomes of one. -/
theorem exists_ownNhis_eq {n : MbNode} (hn : n.Layout) {pos : ℕ} {v : Nhi}
    (hv : n.rule pos = some v) (level : ℕ) :
    ∃ rest, n.ownNhis level = {v} + rest ∧
      (∀ v', (n.putRule pos v').ownNhis level = {v'} + rest) ∧
      ∀ ptr, (n.withoutRule ptr pos).ownNhis level = rest := by
  set r := rank (members n.internal) pos with hr
  have hmem := mem_of_rule hv
  have hlt : r < n.rules.length := hn.rules_length ▸ rank_lt_card hmem
  have hget : n.rules[r] = v := by
    rw [MbNode.rule, lookup_of_mem hmem, List.getElem?_eq_getElem hlt] at hv
    exact Option.some.inj hv
  refine ⟨(n.rules.eraseIdx r : Multiset Nhi), ?_, fun v' => ?_, fun ptr => rfl⟩
  · have hperm := List.getElem_cons_eraseIdx_perm hlt
    rw [hget] at hperm
    exact (Multiset.coe_eq_coe.mpr hperm).symm
  · exact Multiset.coe_eq_coe.mpr (List.set_perm_cons_eraseIdx hlt v')

section PutChild

variable {n c c' : MbNode} {pos level : ℕ}

/-- The exchange made by a child is made by its parent, and so is the loss. -/
theorem trades_putChild {m m' : Mm} {lost : Multiset Block} (hn : n.Layout)
    (hc : n.kid pos = some c)
    (h : mmBook.Trades m m' (c.blocks (level + 1)) (c'.blocks (level + 1) + lost)) :
    mmBook.Trades m m' (n.blocks level) ((n.putChild pos c').blocks level + lost) := by
  obtain ⟨rest, hold, hnew, -⟩ := exists_inner_eq MbNode.own level hn hc
  have hown : (n.putChild pos c').own level = n.own level := rfl
  rw [blocks_eq, blocks_eq, hold, hnew, hown]
  refine (h.frame (n.own level + rest)).congr ?_ ?_ <;> rw [MbNode.blocks] <;> abel

theorem nhis_putChild {a b : Multiset Nhi} (hn : n.Layout) (hc : n.kid pos = some c)
    (h : c'.nhis (level + 1) + a = c.nhis (level + 1) + b) :
    (n.putChild pos c').nhis level + a = n.nhis level + b := by
  obtain ⟨rest, hold, hnew, -⟩ := exists_inner_eq MbNode.ownNhis level hn hc
  have hown : (n.putChild pos c').ownNhis level = n.ownNhis level := rfl
  rw [MbNode.nhis] at h
  rw [nhis_eq, nhis_eq, hold, hnew, hown]
  calc n.ownNhis level + (c'.collect MbNode.ownNhis (level + 1) + rest) + a
      = n.ownNhis level + rest + (c'.collect MbNode.ownNhis (level + 1) + a) := by abel
    _ = n.ownNhis level + rest + (c.collect MbNode.ownNhis (level + 1) + b) := by rw [h]
    _ = n.ownNhis level + (c.collect MbNode.ownNhis (level + 1) + rest) + b := by abel

end PutChild

/-! ## Addresses and bit strings -/

section Addresses

variable {α : Type} [IpAddr α]

open IpAddr (bits lshift rshift)

/-- The address is the string, followed by zeros. -/
def Spells (ip : α) (s : List Bool) : Prop :=
  bits ip = s ++ List.replicate (IpAddr.LENGTH α - s.length) false

theorem Spells.length_le {ip : α} {s : List Bool} (h : Spells ip s) :
    s.length ≤ IpAddr.LENGTH α := by
  have := IpAddr.length_bits ip
  rw [h, List.length_append] at this
  omega

theorem spells_bits (ip : α) : Spells ip (bits ip) := by
  rw [Spells, IpAddr.length_bits, Nat.sub_self, List.replicate_zero, List.append_nil]

theorem spells_zero : Spells (IpAddr.zero : α) [] := IpAddr.bits_zero

variable (α) in
theorem LEVEL_le_MAX_LEVEL : LEVEL α ≤ MAX_LEVEL := by
  have := Nat.div_le_div_right (c := 6) (IpAddr.length_le (α := α))
  rw [LEVEL, STRIDE_eq, MAX_LEVEL]
  omega

/-- A trie for part of an address is no higher than the counters reach. -/
theorem level_of_le {w : ℕ} (hw : w ≤ IpAddr.LENGTH α) : 0 + w / 6 < MAX_LEVEL := by
  have hle := LEVEL_le_MAX_LEVEL α
  have hdiv := Nat.div_le_div_right (c := 6) hw
  rw [LEVEL, STRIDE_eq] at hle
  omega

theorem strideOf_eq (ip : α) : strideOf ip = value ((bits ip).take 6) := by
  have hlen := IpAddr.le_length (α := α)
  have hlt := value_lt ((bits ip).take 6)
  rw [List.length_take, IpAddr.length_bits, min_eq_left (by omega)] at hlt
  rw [strideOf, STRIDE_eq, IpAddr.rshift_eq ip 6 (by decide) (by decide), u8,
    Nat.mod_eq_of_lt (by omega)]

/-- The first stride of a string that is long enough. -/
theorem Spells.strideOf_eq {ip : α} {s : List Bool} (h : Spells ip s) (hs : 6 ≤ s.length) :
    strideOf ip = value (s.take 6) := by
  rw [TreeBitmap.strideOf_eq, h, List.take_append_of_le_length hs]

theorem Spells.lshift {ip : α} {s : List Bool} {k : ℕ} (h : Spells ip s) (h0 : 0 < k)
    (hk : k < 32) (hs : k ≤ s.length) : Spells (lshift ip k) (s.drop k) := by
  have hle := h.length_le
  rw [Spells, IpAddr.bits_lshift ip k h0 hk, h, List.drop_append_of_le_length hs,
    List.append_assoc, ← List.replicate_add, List.length_drop]
  congr 3
  omega

theorem Spells.lshift_append {ip : α} {t s : List Bool} (h : Spells ip (t ++ s))
    (ht : t.length = 6) : Spells (IpAddr.lshift ip 6) s := by
  have hshift := h.lshift (k := 6) (by decide) (by decide) (by rw [List.length_append]; omega)
  have hdrop : (t ++ s).drop 6 = s := ht ▸ List.drop_left
  rwa [hdrop] at hshift

theorem Spells.strideOf_append {ip : α} {t s : List Bool} (h : Spells ip (t ++ s))
    (ht : t.length = 6) : strideOf ip = value t := by
  have htake : (t ++ s).take 6 = t := ht ▸ List.take_left
  rw [h.strideOf_eq (by rw [List.length_append]; omega), htake]

/-- The position of a short string, computed from its address. -/
theorem Spells.leafPos_eq {ip : α} {s : List Bool} (h : Spells ip s) (hs : s.length < 6) :
    leafPos ip s.length = inlPos s := by
  have hval : u8 (rshift ip (IpAddr.LENGTH α - s.length)) = value s := by
    rcases Nat.eq_zero_or_pos s.length with h0 | hpos
    · obtain rfl : s = [] := List.length_eq_zero_iff.mp h0
      obtain rfl : ip = IpAddr.zero := IpAddr.bits_injective (h.trans spells_zero.symm)
      rw [IpAddr.rshift_zero]
      rfl
    · have hlt := value_lt s
      have hpow : 2 ^ s.length ≤ 2 ^ 5 := Nat.pow_le_pow_right (by decide) (by omega)
      rw [IpAddr.rshift_eq ip _ hpos (by omega), h, List.take_left, u8,
        Nat.mod_eq_of_lt (by omega)]
  have hlt := inlPos_lt_bits hs
  rw [leafPos, hval, ← inlPos, u8, Nat.mod_eq_of_lt (by omega)]

end Addresses

end TreeBitmap
