import TreeBitmap.MbNode
import TreeBitmap.Lib.Ranked
import Mathlib.Data.Finset.Image
import Mathlib.Tactic.Linarith

/-!
# What the array edits of a node do

The bitmaps are read as finite sets of positions and the two arrays of a node as
rank-indexed arrays over them.  Each of the four edits of `lib/mb_node.c` is then
one insertion or removal in such an array, together with an exchange of the node's
old block for a new one.

## Main definitions

* `members b` — the set positions of a bitmap.
* `MbNode.Layout` — the arrays have the lengths that the bitmaps say.
* `MbNode.rule`, `MbNode.kid` — the next hop and the child at a position.
* `MbNode.own` — the node's block, as a ledger entry.
* `extendRule_spec`, `extendChild_spec`, `reduceChild_spec`, `reduceRule_spec`.
-/

namespace TreeBitmap

open Ranked

/-! ## Bitmaps as sets of positions -/

/-- The set positions of a bitmap. -/
def members (b : Bitmap) : Finset ℕ := (Finset.range 64).filter fun i => b.getLsbD i

theorem mem_members {b : Bitmap} {i : ℕ} : i ∈ members b ↔ b.getLsbD i := by
  simp only [members, Finset.mem_filter, Finset.mem_range, and_iff_right_iff_imp]
  exact fun h => BitVec.lt_of_getLsbD h

theorem lt_of_mem_members {b : Bitmap} {i : ℕ} (h : i ∈ members b) : i < 64 :=
  BitVec.lt_of_getLsbD (mem_members.mp h)

@[simp] theorem members_zero : members 0#64 = ∅ := by
  ext i
  simp [mem_members]

theorem members_eq_empty_iff {b : Bitmap} : members b = ∅ ↔ b = 0#64 := by
  constructor
  · intro h
    apply BitVec.eq_of_getLsbD_eq
    intro i _
    have : i ∉ members b := by simp [h]
    simpa [mem_members] using this
  · intro h
    rw [h, members_zero]

theorem members_injective : Function.Injective members := by
  intro b b' h
  apply BitVec.eq_of_getLsbD_eq
  intro i _
  have hi : i ∈ members b ↔ i ∈ members b' := by rw [h]
  rw [mem_members, mem_members] at hi
  exact Bool.eq_iff_iff.mpr hi

private theorem getLsbD_mask (pos i : ℕ) :
    (1#64 <<< pos).getLsbD i = decide (i < 64 ∧ i = pos) := by
  simp only [BitVec.getLsbD_shiftLeft, BitVec.getLsbD_one]
  by_cases hi : i < 64 <;> by_cases hlt : i < pos <;> simp [hi, hlt] <;> omega

theorem members_setBitmap {b : Bitmap} {pos : ℕ} (hpos : pos < 64) :
    members (setBitmap b pos) = insert pos (members b) := by
  ext i
  simp only [mem_members, Finset.mem_insert, setBitmap, BitVec.getLsbD_or, getLsbD_mask,
    Bool.or_eq_true, decide_eq_true_eq]
  constructor
  · intro h
    rcases h with h | h
    · exact .inr h
    · exact .inl h.2
  · intro h
    rcases h with rfl | h
    · exact .inr ⟨hpos, rfl⟩
    · exact .inl h

theorem members_clearBitmap (b : Bitmap) (pos : ℕ) :
    members (clearBitmap b pos) = (members b).erase pos := by
  ext i
  simp only [mem_members, Finset.mem_erase, clearBitmap, BitVec.getLsbD_and, BitVec.getLsbD_not,
    getLsbD_mask, Bool.and_eq_true, Bool.not_eq_true', decide_eq_true_eq, decide_eq_false_iff_not]
  constructor
  · intro h
    obtain ⟨hb, hi, hne⟩ := h
    exact ⟨fun h => hne ⟨hi, h⟩, hb⟩
  · intro h
    obtain ⟨hne, hb⟩ := h
    exact ⟨hb, BitVec.lt_of_getLsbD hb, fun h => hne h.2⟩

theorem testBitmap_iff {b : Bitmap} {pos : ℕ} : testBitmap b pos ↔ pos ∈ members b := by
  have hbit : ∀ i, (b &&& (1#64 <<< pos)).getLsbD i = (decide (i = pos) && b.getLsbD i) := by
    intro i
    rw [BitVec.getLsbD_and, getLsbD_mask]
    by_cases hi : i < 64
    · simp [hi, Bool.and_comm]
    · simp [BitVec.getLsbD_of_ge b i (by omega)]
  rw [mem_members, testBitmap, bne_iff_ne]
  constructor
  · intro h
    by_contra hpos
    refine h (BitVec.eq_of_getLsbD_eq fun i _ => ?_)
    rw [hbit]
    by_cases hi : i = pos <;> simp_all
  · intro h hzero
    have := hbit pos
    rw [hzero] at this
    simp [h] at this

theorem popcount_eq_card (b : Bitmap) : popcount b = (members b).card := by
  have hrec : ∀ n, b.cpopNatRec n 0 = ((Finset.range n).filter fun i => b.getLsbD i).card := by
    intro n
    induction n with
    | zero => simp
    | succ n ih =>
        rw [BitVec.cpopNatRec_succ, BitVec.cpopNatRec_add, ih, Finset.range_add_one,
          Finset.filter_insert]
        cases h : b.getLsbD n <;> simp [h]
  rw [popcount, BitVec.toNat_cpop, hrec]
  rfl

theorem countChildren_eq_card (b : Bitmap) : countChildren b = (members b).card :=
  popcount_eq_card b

theorem popcount_ushiftRight (b : Bitmap) (pos : ℕ) :
    popcount (b >>> pos) = ((members b).filter (pos ≤ ·)).card := by
  rw [popcount_eq_card, ← Finset.card_map (addRightEmbedding pos)]
  congr 1
  ext i
  simp only [Finset.mem_map, addRightEmbedding_apply, Finset.mem_filter, mem_members,
    BitVec.getLsbD_ushiftRight]
  constructor
  · intro h
    obtain ⟨j, hj, rfl⟩ := h
    exact ⟨by rwa [Nat.add_comm], by omega⟩
  · intro h
    obtain ⟨hi, hpos⟩ := h
    exact ⟨i - pos, by rwa [Nat.add_sub_cancel' hpos], by omega⟩

/-- `count_ones` is the rank of the lowest set position at or above. -/
theorem countOnes_of_isLeast {b : Bitmap} {pos j : ℕ}
    (h : IsLeast {i | i ∈ members b ∧ pos ≤ i} j) : countOnes b pos = rank (members b) j := by
  rw [countOnes, popcount_ushiftRight, card_filter_ge_of_isLeast h]
  push_cast
  ring

/-- Without such a position, it is below any slot. -/
theorem countOnes_of_forall_lt {b : Bitmap} {pos : ℕ} (h : ∀ i ∈ members b, i < pos) :
    countOnes b pos = -1 := by
  rw [countOnes, popcount_ushiftRight, Finset.filter_false_of_mem fun i hi => not_le.mpr (h i hi),
    Finset.card_empty]
  rfl

/-- At a set position, `count_ones` is the number of set positions above. -/
theorem countOnes_of_mem {b : Bitmap} {pos : ℕ} (h : pos ∈ members b) :
    countOnes b pos = rank (members b) pos :=
  countOnes_of_isLeast ⟨⟨h, le_refl _⟩, fun _ hi => hi.2⟩

/-- The position that is about to be set has the rank it will have then. -/
theorem countOnes_setBitmap (b : Bitmap) {pos : ℕ} (hpos : pos < 64) :
    countOnes (setBitmap b pos) pos = rank (members b) pos := by
  have hset := members_setBitmap (b := b) hpos
  rw [countOnes_of_mem (hset ▸ Finset.mem_insert_self _ _), hset, rank_insert_self]

theorem countChildren_setBitmap {b : Bitmap} {pos : ℕ} (hpos : pos < 64) (h : pos ∉ members b) :
    countChildren (setBitmap b pos) = countChildren b + 1 := by
  rw [countChildren_eq_card, countChildren_eq_card, members_setBitmap hpos,
    Finset.card_insert_of_notMem h]

theorem countChildren_clearBitmap {b : Bitmap} {pos : ℕ} (h : pos ∈ members b) :
    countChildren (clearBitmap b pos) = countChildren b - 1 := by
  rw [countChildren_eq_card, countChildren_eq_card, members_clearBitmap,
    Finset.card_erase_of_mem h]

/-! ## Arrays -/

section Arrays

variable {α : Type}

@[simp] theorem load_natCast (l : List α) (i : ℕ) : load l (i : ℤ) = l[i]? := by
  simp [load]

theorem store_natCast {l : List α} {i : ℕ} (hi : i < l.length) (x : α) :
    store l (i : ℤ) x = some (l.set i x) := by
  simp [store, hi]

/-- A copy inside both arrays. -/
theorem memcpy_natCast (dst src : List α) (j i len : ℕ) (hsrc : i + len ≤ src.length)
    (hdst : j + len ≤ dst.length) :
    memcpy dst (j : ℤ) src (i : ℤ) (len : ℤ) =
      some (dst.take j ++ (src.drop i).take len ++ dst.drop (j + len)) := by
  by_cases hlen : len = 0
  · subst hlen
    simp [memcpy]
  · have hpos : (0 : ℤ) < len := by omega
    have hcond : (0 : ℤ) < len ∧ (0 : ℤ) ≤ i ∧ (0 : ℤ) ≤ j ∧ (i : ℤ) + len ≤ src.length ∧
        (j : ℤ) + len ≤ dst.length := by omega
    rw [memcpy, if_neg hpos.ne', if_pos hcond]
    rfl

theorem insertIdx_eq_append {l : List α} {r : ℕ} (hr : r ≤ l.length) (x : α) :
    l.insertIdx r x = l.take r ++ [x] ++ l.drop r := by
  induction l generalizing r with
  | nil =>
      obtain rfl : r = 0 := by simpa using hr
      rfl
  | cons a l ih =>
      cases r with
      | zero => rfl
      | succ r => simpa using ih (by simpa using hr)

theorem set_insertIdx {l : List α} {r : ℕ} (hr : r ≤ l.length) (x y : α) :
    (l.insertIdx r x).set r y = l.insertIdx r y := by
  rw [insertIdx_eq_append hr, insertIdx_eq_append hr, List.append_assoc, List.append_assoc,
    List.set_append_right _ _ (by simp)]
  simp [hr]

/-- The used part of an array, into one with room for it. -/
theorem memcpy_all (dst : List α) {l : List α} (tail : List α) (h : l.length ≤ dst.length) :
    memcpy dst 0 (l ++ tail) 0 l.length = some (l ++ dst.drop l.length) := by
  have := memcpy_natCast dst (l ++ tail) 0 0 l.length (by simp) (by omega)
  simpa using this

/-- The two copies that leave a gap at slot `r`. -/
theorem memcpy_gap (dst : List α) {l : List α} {r : ℕ} {y : α} (tail : List α) (hr : r ≤ l.length)
    (hdst : l.length + 1 ≤ dst.length) (hy : dst[r]? = some y) :
    (memcpy dst 0 (l ++ tail) 0 r >>= fun d => memcpy d (r + 1) (l ++ tail) r (l.length - r)) =
      some (l.insertIdx r y ++ dst.drop (l.length + 1)) := by
  have h₁ := memcpy_natCast dst (l ++ tail) 0 0 r (by simp; omega) (by omega)
  simp only [Nat.cast_zero, List.take_zero, List.nil_append, List.drop_zero, zero_add,
    List.take_append_of_le_length hr] at h₁
  have h₂ := memcpy_natCast (l.take r ++ dst.drop r) (l ++ tail) (r + 1) r (l.length - r)
    (by simp; omega) (by simp; omega)
  push_cast [Nat.cast_sub hr] at h₂
  rw [h₁, Option.bind_eq_bind, Option.bind_some, h₂, insertIdx_eq_append hr]
  have htake : (l.take r ++ dst.drop r).take (r + 1) = l.take r ++ [y] := by
    have hcell : (dst.drop r).take 1 = [y] := by
      rw [List.take_one, List.head?_drop, hy]
      rfl
    rw [← hcell]
    simp [List.take_append, hr]
  have hmid : ((l ++ tail).drop r).take (l.length - r) = l.drop r := by
    rw [List.drop_append_of_le_length hr, List.take_append_of_le_length (by simp),
      List.take_of_length_le (by simp)]
  have hend : (l.take r ++ dst.drop r).drop (r + 1 + (l.length - r)) = dst.drop (l.length + 1) := by
    have hlen : r + 1 + (l.length - r) = l.length + 1 := by omega
    rw [hlen, List.drop_append, List.drop_eq_nil_of_le (by simp), List.nil_append, List.drop_drop,
      List.length_take, min_eq_left hr]
    congr 1
    omega
  rw [htake, hmid, hend]

/-- The two copies that close the gap at slot `r`. -/
theorem memcpy_close (dst : List α) {l : List α} {r : ℕ} (tail : List α) (hr : r < l.length)
    (hdst : l.length ≤ dst.length + 1) :
    (memcpy dst 0 (l ++ tail) 0 r >>= fun d =>
        memcpy d r (l ++ tail) (r + 1) (l.length - r - 1)) =
      some (l.eraseIdx r ++ dst.drop (l.length - 1)) := by
  have h₁ := memcpy_natCast dst (l ++ tail) 0 0 r (by simp; omega) (by omega)
  simp only [Nat.cast_zero, List.take_zero, List.nil_append, List.drop_zero, zero_add,
    List.take_append_of_le_length hr.le] at h₁
  have h₂ := memcpy_natCast (l.take r ++ dst.drop r) (l ++ tail) r (r + 1) (l.length - r - 1)
    (by simp; omega) (by simp; omega)
  have hone : 1 ≤ l.length - r := by omega
  push_cast [Nat.cast_sub hone, Nat.cast_sub hr.le] at h₂
  rw [h₁, Option.bind_eq_bind, Option.bind_some, h₂, List.eraseIdx_eq_take_drop_succ]
  have htake : (l.take r ++ dst.drop r).take r = l.take r := by
    simp [hr.le]
  have hmid : ((l ++ tail).drop (r + 1)).take (l.length - r - 1) = l.drop (r + 1) := by
    rw [List.drop_append_of_le_length hr, List.take_append_of_le_length (by simp; omega),
      List.take_of_length_le (by simp; omega)]
  have hend : (l.take r ++ dst.drop r).drop (r + (l.length - r - 1)) = dst.drop (l.length - 1) := by
    have hlen : r + (l.length - r - 1) = l.length - 1 := by omega
    rw [hlen, List.drop_append, List.drop_eq_nil_of_le (by simp; omega), List.nil_append,
      List.drop_drop, List.length_take, min_eq_left hr.le]
    congr 1
    omega
  rw [htake, hmid, hend]

/-- The whole array, into a new one of the same length. -/
theorem copy_all (l : List α) (z : α) :
    (if l.length ≠ 0 then memcpy (List.replicate l.length z) 0 l 0 l.length
      else some (List.replicate l.length z)) = some l := by
  split_ifs with h
  · have := memcpy_all (List.replicate l.length z) (l := l) [] (by simp)
    simpa using this
  · rw [List.length_eq_zero_iff.mp (not_not.mp h)]
    rfl

/-- The array with a gap at slot `r`, into a new one that is one slot longer. -/
theorem copy_gap {l : List α} {r : ℕ} (hr : r ≤ l.length) (z : α) :
    (if l.length ≠ 0 then memcpy (List.replicate (l.length + 1) z) 0 l 0 r >>= fun d =>
        memcpy d (r + 1) l r (l.length - r)
      else some (List.replicate (l.length + 1) z)) = some (l.insertIdx r z) := by
  split_ifs with h
  · have := memcpy_gap (List.replicate (l.length + 1) z) [] hr (by simp)
      (List.getElem?_replicate_of_lt (by omega))
    simpa using this
  · have hl : l = [] := List.length_eq_zero_iff.mp (not_not.mp h)
    subst hl
    obtain rfl : r = 0 := by simpa using hr
    rfl

/-- The array without slot `r`, into a new one that is one slot shorter. -/
theorem copy_close {l : List α} {r : ℕ} (hr : r < l.length) (z : α) :
    (if 1 < l.length then memcpy (List.replicate (l.length - 1) z) 0 l 0 r >>= fun d =>
        memcpy d r l (r + 1) (l.length - r - 1)
      else some (List.replicate (l.length - 1) z)) = some (l.eraseIdx r) := by
  split_ifs with h
  · have := memcpy_close (List.replicate (l.length - 1) z) [] hr (by simp; omega)
    simpa using this
  · have hone : l.length = 1 := by omega
    obtain ⟨x, rfl⟩ := List.length_eq_one_iff.mp hone
    obtain rfl : r = 0 := by simpa using hr
    rfl

end Arrays

/-! ## Nodes -/

/-- A node is laid out as the header file draws it: one next hop for each set bit of
`internal`, one child for each of `external`, and no block only if there are none. -/
structure MbNode.Layout (n : MbNode) : Prop where
  rules_length : n.rules.length = (members n.internal).card
  children_length : n.children.length = (members n.external).card
  null : n.childPtr = none → n.rules = [] ∧ n.children = []

theorem MbNode.Layout.countRules {n : MbNode} (hn : n.Layout) :
    n.rules.length = countChildren n.internal := by
  rw [countChildren_eq_card, hn.rules_length]

theorem MbNode.Layout.countKids {n : MbNode} (hn : n.Layout) :
    n.children.length = countChildren n.external := by
  rw [countChildren_eq_card, hn.children_length]

/-- Without a block there is nothing to keep in it. -/
theorem MbNode.Layout.count_of_null {n : MbNode} (hn : n.Layout) (h : n.childPtr = none) :
    countChildren n.internal = 0 ∧ countChildren n.external = 0 := by
  obtain ⟨hrules, hkids⟩ := hn.null h
  rw [← hn.countRules, ← hn.countKids, hrules, hkids]
  exact ⟨rfl, rfl⟩

/-- The next hop at a position of `internal`. -/
def MbNode.rule (n : MbNode) (pos : ℕ) : Option Nhi := lookup (members n.internal) n.rules pos

/-- The child at a position of `external`. -/
def MbNode.kid (n : MbNode) (pos : ℕ) : Option MbNode :=
  lookup (members n.external) n.children pos

/-- The base of a node's block, recomputed from the pointer and the bitmap. -/
def MbNode.base (n : MbNode) : Option Ptr :=
  n.childPtr.map fun p => p.sub (upRule (countChildren n.internal))

/-- The size of a node's block in units. -/
def MbNode.units (n : MbNode) : ℕ :=
  upChild (countChildren n.external) + upRule (countChildren n.internal)

/-- The block of a node, as a ledger entry. -/
def MbNode.own (level : ℕ) (n : MbNode) : Multiset Block := granted n.base n.units level

theorem layout_zero : MbNode.zero.Layout where
  rules_length := by rw [MbNode.internal_zero, members_zero]; rfl
  children_length := by rw [MbNode.external_zero, members_zero]; rfl
  null := fun _ => ⟨rfl, rfl⟩

@[simp] theorem own_zero (level : ℕ) : MbNode.zero.own level = 0 := rfl

theorem deref_pointerToNhi {n : MbNode} {pos : ℕ} (h : pos ∈ members n.internal) :
    (pointerToNhi n pos).deref = n.rule pos := by
  rw [NhiPtr.deref, pointerToNhi, countOnes_of_mem h, load_natCast, MbNode.rule, lookup_of_mem h]

/-- At a clear position, `next_child` is the child of the next set position above. -/
theorem child_eq_kid_of_isLeast {n : MbNode} {pos j : ℕ}
    (h : IsLeast {i | i ∈ members n.external ∧ pos ≤ i} j) : n.child pos = n.kid j := by
  rw [MbNode.child, nextChild, countOnes_of_isLeast h, load_natCast, MbNode.kid,
    lookup_of_mem h.1.1]

theorem child_eq_kid {n : MbNode} {pos : ℕ} (h : pos ∈ members n.external) :
    n.child pos = n.kid pos :=
  child_eq_kid_of_isLeast ⟨⟨h, le_refl _⟩, fun _ hi => hi.2⟩

/-- **What `next_child` reads**, whether the position is set or not. -/
theorem child_eq_some_iff {n c : MbNode} {pos : ℕ} :
    n.child pos = some c ↔
      ∃ j, IsLeast {i | i ∈ members n.external ∧ pos ≤ i} j ∧ n.kid j = some c := by
  constructor
  · intro h
    rcases ((members n.external).filter (pos ≤ ·)).eq_empty_or_nonempty with hnone | hsome
    · have hlt : ∀ i ∈ members n.external, i < pos := fun i hi =>
        not_le.mp (Finset.filter_eq_empty_iff.mp hnone hi)
      rw [MbNode.child, nextChild, countOnes_of_forall_lt hlt] at h
      cases h
    · have hleast : IsLeast {i | i ∈ members n.external ∧ pos ≤ i}
          (((members n.external).filter (pos ≤ ·)).min' hsome) := by
        have := Finset.isLeast_min' _ hsome
        rwa [Finset.coe_filter] at this
      exact ⟨_, hleast, (child_eq_kid_of_isLeast hleast).symm.trans h⟩
  · intro h
    obtain ⟨j, hj, hc⟩ := h
    rw [child_eq_kid_of_isLeast hj, hc]

section Positions

variable {n : MbNode} {pos : ℕ}

theorem rule_eq_none_iff (hn : n.Layout) : n.rule pos = none ↔ pos ∉ members n.internal :=
  lookup_eq_none_iff hn.rules_length

theorem exists_kid (hn : n.Layout) (hpos : pos ∈ members n.external) : ∃ c, n.kid pos = some c :=
  Option.isSome_iff_exists.mp (lookup_isSome hn.children_length hpos)

theorem exists_rule (hn : n.Layout) (hpos : pos ∈ members n.internal) : ∃ v, n.rule pos = some v :=
  Option.isSome_iff_exists.mp (lookup_isSome hn.rules_length hpos)

theorem mem_of_kid {c : MbNode} (hc : n.kid pos = some c) : pos ∈ members n.external := by
  by_contra h
  rw [MbNode.kid, lookup_of_notMem h] at hc
  cases hc

theorem mem_of_rule {v : Nhi} (hv : n.rule pos = some v) : pos ∈ members n.internal := by
  by_contra h
  rw [MbNode.rule, lookup_of_notMem h] at hv
  cases hv

end Positions

/-! ## Edited nodes -/

section Edited

variable {n : MbNode} {pos : ℕ}

/-- The node with a next hop more, in the block `ptr`. -/
def MbNode.withRule (n : MbNode) (ptr : Option Ptr) (pos : ℕ) (nhi : Nhi) : MbNode :=
  ⟨n.external, setBitmap n.internal pos, ptr,
    n.rules.insertIdx (rank (members n.internal) pos) nhi, n.children⟩

/-- The node with a zero child more. -/
def MbNode.withChild (n : MbNode) (ptr : Option Ptr) (pos : ℕ) : MbNode :=
  ⟨setBitmap n.external pos, n.internal, ptr, n.rules,
    n.children.insertIdx (rank (members n.external) pos) MbNode.zero⟩

/-- The node with a child less. -/
def MbNode.withoutChild (n : MbNode) (ptr : Option Ptr) (pos : ℕ) : MbNode :=
  ⟨clearBitmap n.external pos, n.internal, ptr, n.rules,
    n.children.eraseIdx (rank (members n.external) pos)⟩

/-- The node with a next hop less. -/
def MbNode.withoutRule (n : MbNode) (ptr : Option Ptr) (pos : ℕ) : MbNode :=
  ⟨n.external, clearBitmap n.internal pos, ptr,
    n.rules.eraseIdx (rank (members n.internal) pos), n.children⟩

/-- The node with another next hop at a set position. -/
def MbNode.putRule (n : MbNode) (pos : ℕ) (nhi : Nhi) : MbNode :=
  { n with rules := n.rules.set (rank (members n.internal) pos) nhi }

/-- The node with another child at a set position. -/
def MbNode.putChild (n : MbNode) (pos : ℕ) (c : MbNode) : MbNode :=
  { n with children := n.children.set (rank (members n.external) pos) c }

theorem layout_withRule (hn : n.Layout) (hpos : pos < 64) (hclear : pos ∉ members n.internal)
    {ptr : Option Ptr} (hptr : ptr ≠ none) (nhi : Nhi) : (n.withRule ptr pos nhi).Layout where
  rules_length := by
    simp only [MbNode.withRule]
    rw [List.length_insertIdx_of_le_length (hn.rules_length ▸ rank_le_card _ _),
      members_setBitmap hpos, Finset.card_insert_of_notMem hclear, hn.rules_length]
  children_length := hn.children_length
  null := fun h => absurd h hptr

theorem layout_withChild (hn : n.Layout) (hpos : pos < 64) (hclear : pos ∉ members n.external)
    {ptr : Option Ptr} (hptr : ptr ≠ none) : (n.withChild ptr pos).Layout where
  rules_length := hn.rules_length
  children_length := by
    simp only [MbNode.withChild]
    rw [List.length_insertIdx_of_le_length (hn.children_length ▸ rank_le_card _ _),
      members_setBitmap hpos, Finset.card_insert_of_notMem hclear, hn.children_length]
  null := fun h => absurd h hptr

theorem layout_withoutChild (hn : n.Layout) (hset : pos ∈ members n.external) {ptr : Option Ptr}
    (hptr : ptr = none → countChildren n.internal = 0 ∧ countChildren n.external - 1 = 0) :
    (n.withoutChild ptr pos).Layout := by
  have hlen : (n.withoutChild ptr pos).children.length = (members n.external).card - 1 := by
    simp only [MbNode.withoutChild]
    rw [List.length_eraseIdx_of_lt (hn.children_length ▸ rank_lt_card hset), hn.children_length]
  refine ⟨hn.rules_length, ?_, fun h => ?_⟩
  · rw [hlen, MbNode.withoutChild, members_clearBitmap, Finset.card_erase_of_mem hset]
  · obtain ⟨hrules, hkids⟩ := hptr h
    rw [countChildren_eq_card] at hrules hkids
    exact ⟨List.length_eq_zero_iff.mp (hn.rules_length.trans hrules),
      List.length_eq_zero_iff.mp (hlen.trans hkids)⟩

theorem layout_withoutRule (hn : n.Layout) (hset : pos ∈ members n.internal) {ptr : Option Ptr}
    (hptr : ptr = none → countChildren n.internal - 1 = 0 ∧ countChildren n.external = 0) :
    (n.withoutRule ptr pos).Layout := by
  have hlen : (n.withoutRule ptr pos).rules.length = (members n.internal).card - 1 := by
    simp only [MbNode.withoutRule]
    rw [List.length_eraseIdx_of_lt (hn.rules_length ▸ rank_lt_card hset), hn.rules_length]
  refine ⟨?_, hn.children_length, fun h => ?_⟩
  · rw [hlen, MbNode.withoutRule, members_clearBitmap, Finset.card_erase_of_mem hset]
  · obtain ⟨hrules, hkids⟩ := hptr h
    rw [countChildren_eq_card] at hrules hkids
    exact ⟨List.length_eq_zero_iff.mp (hlen.trans hrules),
      List.length_eq_zero_iff.mp (hn.children_length.trans hkids)⟩

theorem layout_putRule (hn : n.Layout) (pos : ℕ) (nhi : Nhi) : (n.putRule pos nhi).Layout where
  rules_length := by simpa [MbNode.putRule] using hn.rules_length
  children_length := hn.children_length
  null := fun h => by simpa [MbNode.putRule] using hn.null h

theorem layout_putChild (hn : n.Layout) (pos : ℕ) (c : MbNode) : (n.putChild pos c).Layout where
  rules_length := hn.rules_length
  children_length := by simpa [MbNode.putChild] using hn.children_length
  null := fun h => by simpa [MbNode.putChild] using hn.null h

/-! What is found at each position afterwards. -/

theorem rule_withRule (hn : n.Layout) (hpos : pos < 64) (hclear : pos ∉ members n.internal)
    (ptr : Option Ptr) (nhi : Nhi) (i : ℕ) :
    (n.withRule ptr pos nhi).rule i = if i = pos then some nhi else n.rule i := by
  simp only [MbNode.rule, MbNode.withRule]
  rw [members_setBitmap hpos, lookup_insert hn.rules_length hclear]

theorem rule_putRule (hn : n.Layout) (hset : pos ∈ members n.internal) (nhi : Nhi) (i : ℕ) :
    (n.putRule pos nhi).rule i = if i = pos then some nhi else n.rule i :=
  lookup_set hn.rules_length hset nhi i

theorem rule_withoutRule (hset : pos ∈ members n.internal) (ptr : Option Ptr) (i : ℕ) :
    (n.withoutRule ptr pos).rule i = if i = pos then none else n.rule i := by
  simp only [MbNode.rule, MbNode.withoutRule]
  rw [members_clearBitmap, lookup_erase hset]

theorem kid_withChild (hn : n.Layout) (hpos : pos < 64) (hclear : pos ∉ members n.external)
    (ptr : Option Ptr) (i : ℕ) :
    (n.withChild ptr pos).kid i = if i = pos then some MbNode.zero else n.kid i := by
  simp only [MbNode.kid, MbNode.withChild]
  rw [members_setBitmap hpos, lookup_insert hn.children_length hclear]

theorem kid_putChild (hn : n.Layout) (hset : pos ∈ members n.external) (c : MbNode) (i : ℕ) :
    (n.putChild pos c).kid i = if i = pos then some c else n.kid i :=
  lookup_set hn.children_length hset c i

theorem kid_withoutChild (hset : pos ∈ members n.external) (ptr : Option Ptr) (i : ℕ) :
    (n.withoutChild ptr pos).kid i = if i = pos then none else n.kid i := by
  simp only [MbNode.kid, MbNode.withoutChild]
  rw [members_clearBitmap, lookup_erase hset]

/-- `*pointer_to_nhi(node, pos) = nhi`. -/
theorem assign_pointerToNhi (hn : n.Layout) (hset : pos ∈ members n.internal) (nhi : Nhi) :
    (pointerToNhi n pos).assign nhi = some (n.putRule pos nhi) := by
  rw [NhiPtr.assign, pointerToNhi, countOnes_of_mem hset,
    store_natCast (hn.rules_length ▸ rank_lt_card hset)]
  rfl

/-- `*next_child(node, pos)`. -/
theorem load_nextChild {c : MbNode} (hc : n.kid pos = some c) :
    load n.children (nextChild n pos) = some c :=
  (child_eq_kid (mem_of_kid hc)).trans hc

/-- `*next_child(node, pos) = c`. -/
theorem store_nextChild (hn : n.children.length = (members n.external).card)
    (hset : pos ∈ members n.external) (c : MbNode) :
    store n.children (nextChild n pos) c = some (n.putChild pos c).children := by
  rw [nextChild, countOnes_of_mem hset, store_natCast (hn ▸ rank_lt_card hset)]
  rfl

theorem setChild_eq_putChild (hn : n.children.length = (members n.external).card)
    (hset : pos ∈ members n.external) (c : MbNode) :
    n.setChild pos c = some (n.putChild pos c) := by
  rw [MbNode.setChild, store_nextChild hn hset]
  rfl

end Edited

/-! ## New and old blocks -/

theorem upRule_eq_zero_iff {x : ℕ} : upRule x = 0 ↔ x = 0 := by
  simp only [upRule, NODE_SIZE]
  omega

/-- The cells of a new block are those of its arrays, `NULL` or not. -/
theorem newNode_spec {m : Mm} (hok : m.Succeeds) (mbCnt nhCnt : ℕ) {level : ℕ}
    (hlevel : level < MAX_LEVEL) :
    ∃ ptr m', newNode m mbCnt nhCnt level =
        some (⟨ptr, List.replicate nhCnt 0, List.replicate mbCnt MbNode.zero⟩, m') ∧
      m'.op = m.op ∧ (ptr = none → nhCnt = 0 ∧ mbCnt = 0) ∧ (m.Grants → ptr ≠ none) ∧
      mmBook.Trades m m' 0
        (granted (ptr.map fun p => p.sub (upRule nhCnt)) (upChild mbCnt + upRule nhCnt) level) := by
  obtain ⟨ret, m', halloc, hop, -, hnull, hgrants, htrade⟩ :=
    allocNode_spec hok (upChild mbCnt + upRule nhCnt) hlevel
  rw [newNode, halloc]
  cases ret with
  | none =>
      have hzero := hnull rfl
      have hnh : nhCnt = 0 := upRule_eq_zero_iff.mp (by omega)
      have hmb : mbCnt = 0 := by
        rw [upChild] at hzero
        omega
      subst hnh hmb
      exact ⟨none, m', rfl, hop, fun _ => ⟨rfl, rfl⟩, hgrants, htrade⟩
  | some p =>
      refine ⟨some { p with off := p.off + upRule nhCnt }, m', rfl, hop, by simp, by simp, ?_⟩
      simpa [Ptr.sub] using htrade

/-- The block a node is about to leave is given back under its own name and size. -/
theorem freeOld_spec (m : Mm) (n : MbNode) {level : ℕ} (hlevel : level < MAX_LEVEL) :
    ∃ m', freeOld m n (countChildren n.internal) (countChildren n.external) level = some m' ∧
      m'.op = m.op ∧ mmBook.Trades m m' (n.own level) 0 := by
  rw [freeOld, MbNode.own, MbNode.base]
  rcases n.childPtr with _ | p
  · exact ⟨m, rfl, rfl, Ledger.Book.Trades.refl m 0⟩
  · obtain ⟨m', hfree, hop, -, htrade⟩ := deallocNode_spec m
      (upChild (countChildren n.external) + upRule (countChildren n.internal)) hlevel
      (p.sub (upRule (countChildren n.internal)))
    exact ⟨m', hfree, hop, htrade⟩

theorem Mm.Succeeds.of_op_eq {m m' : Mm} (h : m.Succeeds) (hop : m'.op = m.op) : m'.Succeeds := by
  intro calls nodeNum level hpos
  rw [hop]
  exact h calls nodeNum level hpos

/-! ## The four edits -/

section Edits

variable {m : Mm} {n : MbNode} {pos level : ℕ}

/-- **`extend_rule`** inserts the next hop at its rank. -/
theorem extendRule_spec (hok : m.Succeeds) (hlevel : level < MAX_LEVEL) (hn : n.Layout)
    (hpos : pos < 64) (hclear : pos ∉ members n.internal) (nhi : Nhi) :
    ∃ ptr m', extendRule m n pos level nhi = some (n.withRule ptr pos nhi, m') ∧ m'.op = m.op ∧
      ptr ≠ none ∧ mmBook.Trades m m' (n.own level) ((n.withRule ptr pos nhi).own level) := by
  set r := rank (members n.internal) pos with hr
  have hrank : countOnes (setBitmap n.internal pos) pos = r := countOnes_setBitmap _ hpos
  have hle : r ≤ n.rules.length := hn.rules_length ▸ rank_le_card _ _
  obtain ⟨ptr, m₁, hnew, hop₁, hnull, -, htrade₁⟩ :=
    newNode_spec hok (countChildren n.external) (countChildren n.internal + 1) hlevel
  obtain ⟨m₂, hfree, hop₂, htrade₂⟩ := freeOld_spec m₁ n hlevel
  refine ⟨ptr, m₂, ?_, hop₂.trans hop₁, ?_, ?_⟩
  · have hgap := copy_gap hle (0 : Nhi)
    have hall := copy_all n.children MbNode.zero
    have hslots : (n.rules.insertIdx r (0 : Nhi)).length = n.rules.length + 1 :=
      List.length_insertIdx_of_le_length hle _
    have hstore := store_natCast (l := n.rules.insertIdx r 0) (i := r) (by omega) nhi
    rw [set_insertIdx hle] at hstore
    rw [hn.countRules] at hgap
    rw [hn.countKids] at hall
    have e₁ : (r : ℤ) - r = 0 := sub_self _
    have e₂ : (countChildren n.internal : ℤ) + 1 - (countChildren n.internal - r) = r + 1 := by ring
    have e₃ : (countChildren n.internal : ℤ) - (countChildren n.internal - r) = r := by ring
    have e₄ : (countChildren n.internal : ℤ) - (r + 1) + 1 = countChildren n.internal - r := by ring
    simp only [Option.bind_eq_bind] at hgap
    simp only [extendRule, hrank, hnew, upChild, memcpyRules, e₁, e₂, e₃, e₄, hall,
      add_sub_cancel_right, Option.bind_eq_bind, Option.bind_some, hgap, hstore, hfree]
    rfl
  · intro hp
    exact absurd (hnull hp).1 (Nat.succ_ne_zero _)
  · apply (htrade₁.swap htrade₂).congr rfl
    simp only [MbNode.own, MbNode.base, MbNode.units, MbNode.withRule,
      countChildren_setBitmap hpos hclear]

/-- **`extend_child`** inserts a zero child at its rank and returns its slot. -/
theorem extendChild_spec (hok : m.Succeeds) (hlevel : level < MAX_LEVEL) (hn : n.Layout)
    (hpos : pos < 64) (hclear : pos ∉ members n.external) :
    ∃ ptr m', extendChild m n level pos =
        some (n.withChild ptr pos, nextChild (n.withChild ptr pos) pos, m') ∧
      m'.op = m.op ∧ ptr ≠ none ∧
      mmBook.Trades m m' (n.own level) ((n.withChild ptr pos).own level) := by
  set r := rank (members n.external) pos with hr
  have hrank : countOnes (setBitmap n.external pos) pos = r := countOnes_setBitmap _ hpos
  have hle : r ≤ n.children.length := hn.children_length ▸ rank_le_card _ _
  obtain ⟨ptr, m₁, hnew, hop₁, hnull, -, htrade₁⟩ :=
    newNode_spec hok (countChildren n.external + 1) (countChildren n.internal) hlevel
  obtain ⟨m₂, hfree, hop₂, htrade₂⟩ := freeOld_spec m₁ n hlevel
  refine ⟨ptr, m₂, ?_, hop₂.trans hop₁, ?_, ?_⟩
  · have hgap := copy_gap hle MbNode.zero
    have hall := copy_all n.rules (0 : Nhi)
    rw [hn.countKids] at hgap
    rw [hn.countRules] at hall
    simp only [Option.bind_eq_bind] at hgap
    have hslot : nextChild (n.withChild ptr pos) pos = r := hrank
    simp only [extendChild, hrank, hnew, memcpyRules, sub_self, hall, Option.bind_eq_bind,
      Option.bind_some, hgap, hfree, hslot]
    rfl
  · intro hp
    exact absurd (hnull hp).2 (Nat.succ_ne_zero _)
  · apply (htrade₁.swap htrade₂).congr rfl
    simp only [MbNode.own, MbNode.base, MbNode.units, MbNode.withChild,
      countChildren_setBitmap hpos hclear]

/-- **`reduce_child`** erases the child at its rank.  The block may come out as
`NULL`, but only when nothing is left to keep in it. -/
theorem reduceChild_spec (hok : m.Succeeds) (hlevel : level < MAX_LEVEL) (hn : n.Layout)
    (hset : pos ∈ members n.external) :
    ∃ ptr m', reduceChild m n pos level = some (n.withoutChild ptr pos, m') ∧ m'.op = m.op ∧
      (n.withoutChild ptr pos).Layout ∧
      mmBook.Trades m m' (n.own level) ((n.withoutChild ptr pos).own level) := by
  set r := rank (members n.external) pos with hr
  have hlt : r < n.children.length := hn.children_length ▸ rank_lt_card hset
  obtain ⟨ptr, m₁, hnew, hop₁, hnull, -, htrade₁⟩ :=
    newNode_spec hok (countChildren n.external - 1) (countChildren n.internal) hlevel
  obtain ⟨m₂, hfree, hop₂, htrade₂⟩ := freeOld_spec m₁ n hlevel
  refine ⟨ptr, m₂, ?_, hop₂.trans hop₁, ?_, ?_⟩
  · have hclose := copy_close hlt MbNode.zero
    have hall := copy_all n.rules (0 : Nhi)
    rw [hn.countKids] at hclose
    rw [hn.countRules] at hall
    simp only [Option.bind_eq_bind] at hclose
    have hone : ¬ countChildren n.external < 1 := by
      rw [← hn.countKids]
      omega
    have hsome : guard (¬ countChildren n.external < 1) = some () := if_pos hone
    simp only [reduceChild, countOnes_of_mem hset, ← hr, hnew, memcpyRules, sub_self, hall,
      hsome, Option.bind_eq_bind, Option.bind_some, hclose, hfree]
    rfl
  · exact layout_withoutChild hn hset fun hp => ⟨(hnull hp).1, (hnull hp).2⟩
  · apply (htrade₁.swap htrade₂).congr rfl
    simp only [MbNode.own, MbNode.base, MbNode.units, MbNode.withoutChild,
      countChildren_clearBitmap hset]

/-- **`reduce_rule`** erases the next hop at its rank, with the same proviso. -/
theorem reduceRule_spec (hok : m.Succeeds) (hlevel : level < MAX_LEVEL) (hn : n.Layout)
    (hset : pos ∈ members n.internal) :
    ∃ ptr m', reduceRule m n pos level = some (n.withoutRule ptr pos, m') ∧ m'.op = m.op ∧
      (n.withoutRule ptr pos).Layout ∧ (m.Grants → ptr ≠ none) ∧
      mmBook.Trades m m' (n.own level) ((n.withoutRule ptr pos).own level) := by
  set r := rank (members n.internal) pos with hr
  have hlt : r < n.rules.length := hn.rules_length ▸ rank_lt_card hset
  obtain ⟨ptr, m₁, hnew, hop₁, hnull, hgrants, htrade₁⟩ :=
    newNode_spec hok (countChildren n.external) (countChildren n.internal - 1) hlevel
  obtain ⟨m₂, hfree, hop₂, htrade₂⟩ := freeOld_spec m₁ n hlevel
  refine ⟨ptr, m₂, ?_, hop₂.trans hop₁, ?_, hgrants, ?_⟩
  · have hclose := copy_close hlt (0 : Nhi)
    have hall := copy_all n.children MbNode.zero
    rw [hn.countRules] at hclose
    rw [hn.countKids] at hall
    have hone : ¬ countChildren n.internal < 1 := by
      rw [← hn.countRules]
      omega
    have e₁ : (countChildren n.internal : ℤ) - (r + 1) = countChildren n.internal - r - 1 := by
      ring
    have e₂ : (countChildren n.internal : ℤ) - 1 - (countChildren n.internal - r - 1) = r := by
      ring
    have e₃ : (countChildren n.internal : ℤ) - (countChildren n.internal - r - 1) = r + 1 := by
      ring
    simp only [Option.bind_eq_bind] at hclose
    simp only [reduceRule, countOnes_of_mem hset, ← hr, if_neg hone, hnew, memcpyRules, upChild,
      add_sub_cancel_right, sub_self, e₁, e₂, e₃, hall, Option.bind_eq_bind, Option.bind_some,
      hclose, hfree]
    rfl
  · exact layout_withoutRule hn hset fun hp => ⟨(hnull hp).1, (hnull hp).2⟩
  · apply (htrade₁.swap htrade₂).congr rfl
    simp only [MbNode.own, MbNode.base, MbNode.units, MbNode.withoutRule,
      countChildren_clearBitmap hset]

end Edits

end TreeBitmap
