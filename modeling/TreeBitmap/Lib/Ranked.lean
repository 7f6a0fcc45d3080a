import Mathlib.Data.Finset.Card
import Mathlib.Data.Finset.Sort
import Mathlib.Data.Multiset.Basic
import Mathlib.Data.List.InsertIdx

/-!
# Arrays indexed by rank

A compressed array keeps one entry for each element of a finite set of positions.
The entries stand in descending order of position, so the entry of `i` is found at
the number of members above `i`.  Adding a position inserts one entry, removing a
position erases one, and in both cases every other position still finds its own
entry.

## Main definitions

* `Ranked.rank S i` — how many members of `S` lie above `i`.
* `Ranked.lookup S l i` — the entry of `i` in the array `l` over `S`.
* `Ranked.lookup_insert`, `Ranked.lookup_set`, `Ranked.lookup_erase` — the three
  updates.
-/

namespace Ranked

variable {ι α : Type*} [LinearOrder ι]

/-- How many members of the set lie above the position. -/
def rank (S : Finset ι) (i : ι) : ℕ := (S.filter (i < ·)).card

/-- The entry of a position, if it has one. -/
def lookup (S : Finset ι) (l : List α) (i : ι) : Option α :=
  if i ∈ S then l[rank S i]? else none

theorem rank_lt_card {S : Finset ι} {i : ι} (hi : i ∈ S) : rank S i < S.card :=
  Finset.card_lt_card
    ((Finset.filter_ssubset).mpr ⟨i, hi, lt_irrefl i⟩)

theorem rank_le_card (S : Finset ι) (i : ι) : rank S i ≤ S.card :=
  Finset.card_filter_le _ _

/-- Going down past a member raises the rank. -/
theorem rank_lt_rank {S : Finset ι} {i j : ι} (hi : i ∈ S) (hji : j < i) :
    rank S i < rank S j := by
  refine Finset.card_lt_card ⟨?_, fun h => ?_⟩
  · intro k hk
    rw [Finset.mem_filter] at hk ⊢
    exact ⟨hk.1, hji.trans hk.2⟩
  · have := h (Finset.mem_filter.mpr ⟨hi, hji⟩)
    simp at this

theorem rank_injOn {S : Finset ι} {i j : ι} (hi : i ∈ S) (hj : j ∈ S)
    (h : rank S i = rank S j) : i = j := by
  rcases lt_trichotomy i j with hij | hij | hij
  · have := rank_lt_rank hj hij
    omega
  · exact hij
  · have := rank_lt_rank hi hij
    omega

@[simp] theorem rank_insert_self (S : Finset ι) (i : ι) : rank (insert i S) i = rank S i := by
  rw [rank, Finset.filter_insert, if_neg (lt_irrefl i), rank]

theorem rank_insert_of_le {S : Finset ι} {i j : ι} (hij : i ≤ j) :
    rank (insert i S) j = rank S j := by
  rw [rank, Finset.filter_insert, if_neg (not_lt.mpr hij), rank]

theorem rank_insert_of_lt {S : Finset ι} {i j : ι} (hi : i ∉ S) (hji : j < i) :
    rank (insert i S) j = rank S j + 1 := by
  rw [rank, Finset.filter_insert, if_pos hji, Finset.card_insert_of_notMem, rank]
  exact fun h => hi (Finset.mem_filter.mp h).1

/-- The lowest member at or above a position is the last one that is counted from there. -/
theorem card_filter_ge_of_isLeast {S : Finset ι} {i j : ι}
    (h : IsLeast {k | k ∈ S ∧ i ≤ k} j) : (S.filter (i ≤ ·)).card = rank S j + 1 := by
  have hsplit : S.filter (i ≤ ·) = insert j (S.filter (j < ·)) := by
    ext k
    simp only [Finset.mem_filter, Finset.mem_insert]
    constructor
    · intro hk
      rcases (h.2 hk).eq_or_lt with rfl | hlt
      · exact .inl rfl
      · exact .inr ⟨hk.1, hlt⟩
    · intro hk
      rcases hk with rfl | hk
      · exact h.1
      · exact ⟨hk.1, h.1.2.trans hk.2.le⟩
  rw [hsplit, Finset.card_insert_of_notMem (by simp), rank]

@[simp] theorem lookup_of_notMem {S : Finset ι} {l : List α} {i : ι} (hi : i ∉ S) :
    lookup S l i = none := if_neg hi

theorem lookup_of_mem {S : Finset ι} {l : List α} {i : ι} (hi : i ∈ S) :
    lookup S l i = l[rank S i]? := if_pos hi

/-- An array with one entry per member answers every member. -/
theorem lookup_isSome {S : Finset ι} {l : List α} {i : ι} (hl : l.length = S.card) (hi : i ∈ S) :
    (lookup S l i).isSome := by
  rw [lookup_of_mem hi, List.getElem?_eq_getElem (hl ▸ rank_lt_card hi)]
  rfl

theorem lookup_eq_none_iff {S : Finset ι} {l : List α} {i : ι} (hl : l.length = S.card) :
    lookup S l i = none ↔ i ∉ S := by
  constructor
  · intro h hi
    have := lookup_isSome hl hi
    simp [h] at this
  · exact lookup_of_notMem

/-- Every index of the array is the rank of some member. -/
theorem image_rank (S : Finset ι) : S.image (rank S) = Finset.range S.card := by
  have hinj : Set.InjOn (rank S) S := fun i hi j hj h => rank_injOn hi hj h
  apply Finset.eq_of_subset_of_card_le
  · intro r hr
    obtain ⟨i, hi, rfl⟩ := Finset.mem_image.mp hr
    exact Finset.mem_range.mpr (rank_lt_card hi)
  · rw [Finset.card_range, Finset.card_image_of_injOn hinj]

/-- An array is determined by its entries. -/
theorem eq_of_lookup_eq {S : Finset ι} {l l' : List α} (hl : l.length = S.card)
    (hl' : l'.length = S.card) (h : ∀ i ∈ S, lookup S l i = lookup S l' i) : l = l' := by
  apply List.ext_getElem?
  intro k
  by_cases hk : k < S.card
  · have hkS : k ∈ S.image (rank S) := by
      rw [image_rank, Finset.mem_range]
      exact hk
    obtain ⟨i, hi, rfl⟩ := Finset.mem_image.mp hkS
    have hi' := h i hi
    rwa [lookup_of_mem hi, lookup_of_mem hi] at hi'
  · rw [List.getElem?_eq_none (by omega), List.getElem?_eq_none (by omega)]

@[simp] theorem lookup_map {β : Type*} (S : Finset ι) (l : List α) (f : α → β) (i : ι) :
    lookup S (l.map f) i = (lookup S l i).map f := by
  by_cases hi : i ∈ S
  · rw [lookup_of_mem hi, lookup_of_mem hi, List.getElem?_map]
  · rw [lookup_of_notMem hi, lookup_of_notMem hi]
    rfl

/-- Every entry of the array belongs to some position. -/
theorem exists_lookup_eq {S : Finset ι} {l : List α} (hl : l.length = S.card) {x : α}
    (hx : x ∈ l) : ∃ i ∈ S, lookup S l i = some x := by
  obtain ⟨k, hk, rfl⟩ := List.getElem_of_mem hx
  have hkS : k ∈ S.image (rank S) := by
    rw [image_rank, Finset.mem_range, ← hl]
    exact hk
  obtain ⟨i, hi, hrank⟩ := Finset.mem_image.mp hkS
  refine ⟨i, hi, ?_⟩
  rw [lookup_of_mem hi, hrank, List.getElem?_eq_getElem hk]

/-- **Adding a position** puts its entry in place and keeps all others. -/
theorem lookup_insert {S : Finset ι} {l : List α} {i : ι} (hl : l.length = S.card) (hi : i ∉ S)
    (x : α) (j : ι) :
    lookup (insert i S) (l.insertIdx (rank S i) x) j =
      if j = i then some x else lookup S l j := by
  have hle : rank S i ≤ l.length := hl ▸ rank_le_card S i
  rcases lt_trichotomy j i with hji | rfl | hij
  · rw [if_neg hji.ne]
    by_cases hj : j ∈ S
    · have hlt : rank S i ≤ rank S j :=
        Finset.card_le_card fun k hk => by
          rw [Finset.mem_filter] at hk ⊢
          exact ⟨hk.1, hji.trans hk.2⟩
      rw [lookup_of_mem (Finset.mem_insert_of_mem hj), lookup_of_mem hj, rank_insert_of_lt hi hji,
        List.getElem?_insertIdx]
      have hnot : ¬ rank S j + 1 < rank S i := by omega
      have hne : rank S j + 1 ≠ rank S i := by omega
      simp [hnot, hne]
    · rw [lookup_of_notMem hj, lookup_of_notMem (by simp [hji.ne, hj])]
  · rw [if_pos rfl, lookup_of_mem (Finset.mem_insert_self j S), rank_insert_self,
      List.getElem?_insertIdx]
    simp [hle]
  · rw [if_neg hij.ne']
    by_cases hj : j ∈ S
    · have hlt := rank_lt_rank hj hij
      rw [lookup_of_mem (Finset.mem_insert_of_mem hj), lookup_of_mem hj, rank_insert_of_le hij.le,
        List.getElem?_insertIdx]
      simp [hlt]
    · rw [lookup_of_notMem hj, lookup_of_notMem (by simp [hij.ne', hj])]

/-- **Overwriting an entry** changes the answer at its position only. -/
theorem lookup_set {S : Finset ι} {l : List α} {i : ι} (hl : l.length = S.card) (hi : i ∈ S)
    (x : α) (j : ι) :
    lookup S (l.set (rank S i) x) j = if j = i then some x else lookup S l j := by
  by_cases hj : j ∈ S
  · rw [lookup_of_mem hj, lookup_of_mem hj]
    by_cases hji : j = i
    · subst hji
      rw [if_pos rfl, List.getElem?_set_self (hl ▸ rank_lt_card hi)]
    · rw [if_neg hji, List.getElem?_set_ne fun h => hji (rank_injOn hi hj h).symm]
  · have hji : j ≠ i := fun h => hj (h ▸ hi)
    rw [lookup_of_notMem hj, lookup_of_notMem hj, if_neg hji]

/-- **Removing a position** erases its entry and keeps all others. -/
theorem lookup_erase {S : Finset ι} {l : List α} {i : ι} (hi : i ∈ S) (j : ι) :
    lookup (S.erase i) (l.eraseIdx (rank S i)) j = if j = i then none else lookup S l j := by
  have hS : insert i (S.erase i) = S := Finset.insert_erase hi
  have hiS : i ∉ S.erase i := Finset.notMem_erase i S
  by_cases hji : j = i
  · rw [if_pos hji, hji, lookup_of_notMem hiS]
  rw [if_neg hji]
  by_cases hj : j ∈ S
  · rw [lookup_of_mem (Finset.mem_erase.mpr ⟨hji, hj⟩), lookup_of_mem hj, List.getElem?_eraseIdx]
    rcases lt_or_gt_of_ne hji with hlt | hgt
    · have hrank := rank_insert_of_lt hiS hlt
      have hself := rank_lt_rank hi hlt
      rw [hS] at hrank
      rw [if_neg (by omega), hrank]
    · have hrank := rank_insert_of_le (S := S.erase i) hgt.le
      have hself := rank_lt_rank hj hgt
      rw [hS] at hrank
      rw [if_pos (by omega), hrank]
  · rw [lookup_of_notMem hj, lookup_of_notMem fun h => hj (Finset.mem_of_mem_erase h)]

/-- The ranks of the members are the indices of the array. -/
theorem map_rank (S : Finset ι) : S.val.map (rank S) = Multiset.range S.card := by
  have hinj : Set.InjOn (rank S) S := fun i hi j hj h => rank_injOn hi hj h
  rw [← Finset.image_val_of_injOn hinj, image_rank]
  rfl

/-- **Read over all its positions**, the array gives each of its entries once. -/
theorem map_lookup {S : Finset ι} {l : List α} (hl : l.length = S.card) :
    S.val.map (lookup S l) = (l.map some : Multiset (Option α)) := by
  have hrange : (List.range l.length).map (l[·]?) = l.map some := by
    apply List.ext_getElem
    · simp
    · intro i h₁ h₂
      simp
  calc S.val.map (lookup S l)
      = (S.val.map (rank S)).map (l[·]?) := by
        rw [Multiset.map_map]
        exact Multiset.map_congr rfl fun i hi => lookup_of_mem hi
    _ = (l.map some : Multiset (Option α)) := by
        rw [map_rank, ← hl, ← Multiset.coe_range, Multiset.map_coe, hrange]

/-! ### Reading the array in ascending order of position -/

section Scan

variable {S : Finset ℕ} {l : List α} {i : ℕ}

/-- The entries of the positions below `i`. -/
def readBelow (S : Finset ℕ) (l : List α) (i : ℕ) : Multiset α :=
  (S.filter (· < i)).val.filterMap (lookup S l)

@[simp] theorem readBelow_zero : readBelow S l 0 = 0 := by
  simp [readBelow]

theorem readBelow_succ_of_notMem (hi : i ∉ S) : readBelow S l (i + 1) = readBelow S l i := by
  have hfilter : S.filter (· < i + 1) = S.filter (· < i) := by
    apply Finset.filter_congr
    intro j hj
    have hne : j ≠ i := fun h => hi (h ▸ hj)
    omega
  rw [readBelow, hfilter, readBelow]

theorem readBelow_succ_of_lookup {x : α} (hx : lookup S l i = some x) :
    readBelow S l (i + 1) = readBelow S l i + {x} := by
  have hi : i ∈ S := by
    by_contra h
    rw [lookup_of_notMem h] at hx
    cases hx
  have hfilter : (S.filter (· < i + 1)).val = i ::ₘ (S.filter (· < i)).val := by
    have hset : S.filter (· < i + 1) = insert i (S.filter (· < i)) := by
      ext j
      simp only [Finset.mem_filter, Finset.mem_insert]
      constructor
      · intro hj
        rcases Nat.lt_succ_iff_lt_or_eq.mp hj.2 with h | h
        · exact .inr ⟨hj.1, h⟩
        · exact .inl h
      · intro h
        rcases h with rfl | hj
        · exact ⟨hi, Nat.lt_succ_self _⟩
        · exact ⟨hj.1, Nat.lt_succ_of_lt hj.2⟩
    rw [hset, Finset.insert_val_of_notMem (by simp)]
  rw [readBelow, hfilter, Multiset.filterMap_cons_some _ _ _ hx, add_comm, Multiset.singleton_add,
    readBelow]

/-- **A scan past all positions** has read the whole array. -/
theorem readBelow_of_forall_lt (hl : l.length = S.card) (h : ∀ j ∈ S, j < i) :
    readBelow S l i = (l : Multiset α) := by
  have hfilter : S.filter (· < i) = S := Finset.filter_true_of_mem h
  calc readBelow S l i
      = (S.val.map (lookup S l)).filterMap id := by
        rw [readBelow, hfilter, Multiset.filterMap_map]
        rfl
    _ = (l : Multiset α) := by
        rw [map_lookup hl, Multiset.filterMap_coe]
        simp

end Scan

end Ranked
