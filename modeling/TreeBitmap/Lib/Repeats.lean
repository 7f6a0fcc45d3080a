import TreeBitmap.Lib.Shared
import Mathlib.Data.Finset.Card

/-!
# Repeated values

The members of a finite set, in their order, carry values.  A member repeats if it has the value of
the member just before it; the value `null` does not count.  One pass over the members finds all
repeats, with nothing but the last value in hand.  An array with shared entries needs no entry
for a member that the next one repeats, so the repeats are what sharing can save.

## Main definitions

* `Ranked.Follows R i j` — the member `j` comes right after the member `i`.
* `Ranked.repeated null R f` — the members that repeat.
* `Ranked.Scanned` — a pass that has seen the members below `k`; `Scanned.skip`, `Scanned.read`
  take it one further.
* `Shares.card_le` — **sharing saves no more entries than there are repeats**;
  `Thrifty.card_eq` — and all of them if no owner is repeated.
-/

namespace Ranked

variable {ι α : Type*} [LinearOrder ι] {R S : Finset ι} {f : ι → Option α} {null : α} {i j k : ι}

/-! ## Neighbours -/

/-- The member that comes right after a member. -/
structure Follows (R : Finset ι) (i j : ι) : Prop where
  left_mem : i ∈ R
  right_mem : j ∈ R
  lt : i < j
  least : ∀ k ∈ R, i < k → j ≤ k

theorem Follows.unique_right (h : Follows R i j) (h' : Follows R i k) : j = k :=
  le_antisymm (h.least k h'.right_mem h'.lt) (h'.least j h.right_mem h.lt)

theorem Follows.unique_left (h : Follows R i k) (h' : Follows R j k) : i = j := by
  rcases lt_trichotomy i j with hlt | heq | hgt
  · exact absurd (h.least j h'.left_mem hlt) (not_le.mpr h'.lt)
  · exact heq
  · exact absurd (h'.least i h.left_mem hgt) (not_le.mpr h.lt)

theorem exists_follows (hi : i ∈ R) (h : ∃ k ∈ R, i < k) : ∃ j, Follows R i j := by
  obtain ⟨k, hk, hik⟩ := h
  have hne : (R.filter (i < ·)).Nonempty := ⟨k, Finset.mem_filter.mpr ⟨hk, hik⟩⟩
  have hmin := Finset.mem_filter.mp (Finset.min'_mem _ hne)
  exact ⟨_, hi, hmin.1, hmin.2, fun j hj hij =>
    Finset.min'_le _ j (Finset.mem_filter.mpr ⟨hj, hij⟩)⟩

/-! ## Repeats -/

/-- The member has the value of the one before it. -/
def Repeats (null : α) (R : Finset ι) (f : ι → Option α) (j : ι) : Prop :=
  ∃ i v, Follows R i j ∧ f i = some v ∧ f j = some v ∧ v ≠ null

open Classical in
/-- The members that repeat. -/
noncomputable def repeated (null : α) (R : Finset ι) (f : ι → Option α) : Finset ι :=
  R.filter (Repeats null R f)

theorem Repeats.mem (h : Repeats null R f j) : j ∈ R := by
  obtain ⟨i, v, hij, -⟩ := h
  exact hij.right_mem

theorem mem_repeated_iff : j ∈ repeated null R f ↔ Repeats null R f j := by
  simp only [repeated, Finset.mem_filter, and_iff_right_iff_imp]
  exact Repeats.mem

theorem repeated_subset (null : α) (R : Finset ι) (f : ι → Option α) : repeated null R f ⊆ R :=
  fun _ hj => (mem_repeated_iff.mp hj).mem

/-! ## One pass -/

section Scan

variable {R : Finset ℕ} {f : ℕ → Option α} {k count : ℕ} {prev v : α}

/-- A pass over the members below `k`: `prev` is the value of the last one, or `null` if there has
been none, and `count` of them repeat. -/
structure Scanned (null : α) (R : Finset ℕ) (f : ℕ → Option α) (k : ℕ) (prev : α) (count : ℕ) :
    Prop where
  last : (prev = null ∧ ∀ j ∈ R, k ≤ j) ∨
    ∃ i ∈ R, i < k ∧ f i = some prev ∧ ∀ j ∈ R, i < j → k ≤ j
  card : ((repeated null R f).filter (· < k)).card = count

theorem scanned_zero : Scanned null R f 0 null 0 where
  last := .inl ⟨rfl, fun _ _ => Nat.zero_le _⟩
  card := by simp

/-- What the pass can tell of the next member. -/
theorem Scanned.repeats_iff (h : Scanned null R f k prev count) (hk : k ∈ R) (hv : f k = some v) :
    Repeats null R f k ↔ prev ≠ null ∧ v = prev := by
  constructor
  · intro hrep
    obtain ⟨i, x, hik, hi, hx, hne⟩ := hrep
    obtain rfl : v = x := Option.some.inj (hv.symm.trans hx)
    rcases h.last with ⟨-, hnone⟩ | ⟨j, hj, hjk, hprev, hlast⟩
    · exact absurd (hnone i hik.left_mem) (not_le.mpr hik.lt)
    · have hfollows : Follows R j k := ⟨hj, hk, hjk, hlast⟩
      rw [← hik.unique_left hfollows, hi] at hprev
      obtain rfl := Option.some.inj hprev
      exact ⟨hne, rfl⟩
  · intro heq
    obtain ⟨hne, rfl⟩ := heq
    rcases h.last with ⟨hnull, -⟩ | ⟨j, hj, hjk, hprev, hlast⟩
    · exact absurd hnull hne
    · exact ⟨j, v, ⟨hj, hk, hjk, hlast⟩, hprev, hv, hne⟩

theorem Scanned.skip (h : Scanned null R f k prev count) (hk : k ∉ R) :
    Scanned null R f (k + 1) prev count := by
  have hle : ∀ j ∈ R, k ≤ j → k + 1 ≤ j := by
    intro j hj hkj
    rcases hkj.eq_or_lt with rfl | hlt
    · exact absurd hj hk
    · exact hlt
  refine ⟨?_, ?_⟩
  · rcases h.last with ⟨hnull, hnone⟩ | ⟨i, hi, hik, hprev, hlast⟩
    · exact .inl ⟨hnull, fun j hj => hle j hj (hnone j hj)⟩
    · exact .inr ⟨i, hi, by omega, hprev, fun j hj hij => hle j hj (hlast j hj hij)⟩
  · rw [← h.card]
    congr 1
    apply Finset.filter_congr
    intro j hj
    have hne : j ≠ k := fun heq => hk (heq ▸ repeated_subset null R f hj)
    omega

/-- The value of the next member, and whether it repeats. -/
theorem Scanned.read [DecidableEq α] (h : Scanned null R f k prev count) (hk : k ∈ R)
    (hv : f k = some v) :
    Scanned null R f (k + 1) v (if prev ≠ null ∧ v = prev then count + 1 else count) := by
  refine ⟨.inr ⟨k, hk, by omega, hv, fun j _ hkj => hkj⟩, ?_⟩
  classical
  have hsucc : (repeated null R f).filter (· < k + 1) =
      if Repeats null R f k then insert k ((repeated null R f).filter (· < k))
      else (repeated null R f).filter (· < k) := by
    split_ifs with hrep
    · ext j
      simp only [Finset.mem_filter, Finset.mem_insert, Nat.lt_succ_iff_lt_or_eq]
      constructor
      · intro hj
        rcases hj.2 with hlt | heq
        · exact .inr ⟨hj.1, hlt⟩
        · exact .inl heq
      · intro hj
        rcases hj with rfl | hj
        · exact ⟨mem_repeated_iff.mpr hrep, .inr rfl⟩
        · exact ⟨hj.1, .inl hj.2⟩
    · apply Finset.filter_congr
      intro j hj
      have hne : j ≠ k := fun heq => hrep (heq ▸ mem_repeated_iff.mp hj)
      omega
  rw [hsucc, ← h.card]
  simp only [h.repeats_iff hk hv]
  split_ifs
  · exact Finset.card_insert_of_notMem (by simp)
  · rfl

/-- A pass over all members has counted all repeats. -/
theorem Scanned.card_repeated (h : Scanned null R f k prev count) (hR : ∀ j ∈ R, j < k) :
    (repeated null R f).card = count := by
  rw [← h.card, Finset.filter_true_of_mem]
  intro j hj
  exact hR j (repeated_subset null R f hj)

end Scan

/-! ## Repeats and shared entries -/

section Shared

variable {l : List α}

/-- A member without an entry of its own is repeated by the next one. -/
theorem Shares.exists_follows (h : Shares R S l f) (hi : i ∈ R) (hiS : i ∉ S) :
    ∃ j, Follows R i j ∧ f i = f j := by
  obtain ⟨o, ho⟩ := h.exists_owner hi
  have hio : i < o := lt_of_le_of_ne ho.le fun heq => hiS (heq ▸ ho.mem)
  obtain ⟨j, hj⟩ := Ranked.exists_follows hi ⟨o, h.subset ho.mem, hio⟩
  have hoj : IsOwner S j o := by
    refine ⟨ho.mem, hj.least o (h.subset ho.mem) hio, fun k hk hjk => ?_⟩
    exact ho.least k hk (hj.lt.le.trans hjk)
  exact ⟨j, hj, (h.value i hi o ho).symm.trans (h.value j hj.right_mem o hoj)⟩

/-- **Sharing saves no more entries than there are repeats.** -/
theorem Shares.card_le (h : Shares R S l f) (hf : ∀ i ∈ R, ∃ v, f i = some v ∧ v ≠ null) :
    R.card ≤ S.card + (repeated null R f).card := by
  have hmaps : ∀ i ∈ R \ S, ∃ j ∈ repeated null R f, Follows R i j := by
    intro i hi
    obtain ⟨hiR, hiS⟩ := Finset.mem_sdiff.mp hi
    obtain ⟨j, hij, heq⟩ := h.exists_follows hiR hiS
    obtain ⟨v, hv, hne⟩ := hf i hiR
    exact ⟨j, mem_repeated_iff.mpr ⟨i, v, hij, hv, heq.symm.trans hv, hne⟩, hij⟩
  choose! next hnext hfollows using hmaps
  have hcard : (R \ S).card ≤ (repeated null R f).card := by
    refine Finset.card_le_card_of_injOn next hnext fun i hi j hj heq => ?_
    have hfi := hfollows i hi
    rw [heq] at hfi
    exact hfi.unique_left (hfollows j hj)
  have := Finset.card_sdiff_add_card_eq_card h.subset
  omega

/-- No member with an entry of its own is repeated by the next one. -/
def Thrifty (R S : Finset ι) (f : ι → Option α) : Prop :=
  ∀ i ∈ S, ∀ j, Follows R i j → f i ≠ f j

@[simp] theorem thrifty_empty (R : Finset ι) (f : ι → Option α) : Thrifty R ∅ f := by
  simp [Thrifty]

theorem Thrifty.congr {f' : ι → Option α} (h : Thrifty R S f) (hf : ∀ i ∈ R, f' i = f i) :
    Thrifty R S f' := by
  intro i hi j hij
  rw [hf i hij.left_mem, hf j hij.right_mem]
  exact h i hi j hij

/-- A member in front that uses the entry of the next one. -/
theorem Thrifty.insert_shared (h : Thrifty R S f) (hS : S ⊆ R) (hi : ∀ k ∈ R, i < k)
    (x : Option α) : Thrifty (insert i R) S (Function.update f i x) := by
  intro k hk j hkj
  have hik := hi k (hS hk)
  have hij := hik.trans hkj.lt
  rw [Function.update_of_ne hik.ne', Function.update_of_ne hij.ne']
  refine h k hk j ⟨hS hk, Finset.mem_of_mem_insert_of_ne hkj.right_mem hij.ne', hkj.lt, ?_⟩
  exact fun l hl => hkj.least l (Finset.mem_insert_of_mem hl)

/-- A member in front with another value than the next one. -/
theorem Thrifty.insert_owner (h : Thrifty R S f) (hS : S ⊆ R) (hi : ∀ k ∈ R, i < k) {x : Option α}
    (hx : ∀ j ∈ R, (∀ k ∈ R, j ≤ k) → f j ≠ x) :
    Thrifty (insert i R) (insert i S) (Function.update f i x) := by
  intro k hk j hkj
  rcases Finset.mem_insert.mp hk with rfl | hk
  · have hj := Finset.mem_of_mem_insert_of_ne hkj.right_mem hkj.lt.ne'
    rw [Function.update_self, Function.update_of_ne hkj.lt.ne']
    refine (hx j hj fun l hl => ?_).symm
    exact hkj.least l (Finset.mem_insert_of_mem hl) (hi l hl)
  · exact h.insert_shared hS hi x k hk j hkj

/-- **Then sharing saves as many entries as there are repeats.** -/
theorem Thrifty.card_eq (ht : Thrifty R S f) (h : Shares R S l f)
    (hf : ∀ i ∈ R, ∃ v, f i = some v ∧ v ≠ null) :
    R.card = S.card + (repeated null R f).card := by
  refine le_antisymm (h.card_le hf) ?_
  have hmaps : ∀ j ∈ repeated null R f, ∃ i ∈ R \ S, Follows R i j := by
    intro j hj
    obtain ⟨i, v, hij, hi, hv, -⟩ := mem_repeated_iff.mp hj
    refine ⟨i, Finset.mem_sdiff.mpr ⟨hij.left_mem, fun hiS => ?_⟩, hij⟩
    exact ht i hiS j hij (hi.trans hv.symm)
  choose! prev hprev hfollows using hmaps
  have hcard : (repeated null R f).card ≤ (R \ S).card := by
    refine Finset.card_le_card_of_injOn prev hprev fun i hi j hj heq => ?_
    have hfi := hfollows i hi
    rw [heq] at hfi
    exact hfi.unique_right (hfollows j hj)
  have := Finset.card_sdiff_add_card_eq_card h.subset
  omega

end Shared

end Ranked
