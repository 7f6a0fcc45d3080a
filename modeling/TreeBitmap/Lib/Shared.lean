import TreeBitmap.Lib.Ranked

/-!
# Rank-indexed arrays with shared entries

Equal entries of a rank-indexed array need not be stored twice.  Here only some
positions, the owners, have an entry of their own, and every other position uses the
entry of the first owner above it.  Whether an update disturbs the positions that use
the same entry depends on where the owners are: an owner that comes in, goes out or
gets another entry is seen by all positions between it and the owner below.

## Main definitions

* `Ranked.IsOwner S i o` — `o` is the first member of `S` from `i` on.
* `Ranked.Detached R S p` — no position of `R` below `p` has its owner at `p` or above.
* `Ranked.Shares R S l f` — the array `l` over the owners `S` holds the function `f`
  on `R`.
* `Shares.add_shared`, `Shares.add_owner`, `Shares.set_owner`, `Shares.drop_shared`,
  `Shares.drop_owner` — the updates that disturb nothing.
-/

namespace Ranked

variable {ι α : Type*} [LinearOrder ι] {R S : Finset ι} {l : List α} {f : ι → Option α} {i o p : ι}

/-- The member that stands for a position: the first one from there on. -/
structure IsOwner (S : Finset ι) (i o : ι) : Prop where
  mem : o ∈ S
  le : i ≤ o
  least : ∀ k ∈ S, i ≤ k → o ≤ k

theorem isOwner_self (hi : i ∈ S) : IsOwner S i i := ⟨hi, le_refl i, fun _ _ h => h⟩

theorem IsOwner.unique {o' : ι} (h : IsOwner S i o) (h' : IsOwner S i o') : o = o' :=
  le_antisymm (h.least o' h'.mem h'.le) (h'.least o h.mem h.le)

theorem exists_isOwner (h : ∃ k ∈ S, i ≤ k) : ∃ o, IsOwner S i o := by
  obtain ⟨k, hk, hik⟩ := h
  have hne : (S.filter (i ≤ ·)).Nonempty := ⟨k, Finset.mem_filter.mpr ⟨hk, hik⟩⟩
  have hmin := Finset.mem_filter.mp (Finset.min'_mem _ hne)
  exact ⟨_, hmin.1, hmin.2, fun j hj hij =>
    Finset.min'_le _ j (Finset.mem_filter.mpr ⟨hj, hij⟩)⟩

/-- Counting from a position on is counting from its owner on. -/
theorem card_filter_le (h : IsOwner S i o) : (S.filter (i ≤ ·)).card = rank S o + 1 := by
  have hsplit : S.filter (i ≤ ·) = insert o (S.filter (o < ·)) := by
    ext k
    simp only [Finset.mem_filter, Finset.mem_insert]
    constructor
    · intro hk
      rcases (h.least k hk.1 hk.2).eq_or_lt with rfl | hlt
      · exact .inl rfl
      · exact .inr ⟨hk.1, hlt⟩
    · intro hk
      rcases hk with rfl | hk
      · exact ⟨h.mem, h.le⟩
      · exact ⟨hk.1, h.le.trans hk.2.le⟩
  rw [hsplit, Finset.card_insert_of_notMem (by simp), rank]

/-! ## Owners that come and go -/

/-- No position of `R` below `p` has its owner at `p` or above. -/
def Detached (R S : Finset ι) (p : ι) : Prop := ∀ i ∈ R, i < p → ∃ k ∈ S, i ≤ k ∧ k < p

@[simp] theorem detached_empty (S : Finset ι) (p : ι) : Detached ∅ S p := by simp [Detached]

/-- A position that is detached from `p` has the owner it had, whatever becomes of `p`. -/
theorem Detached.isOwner_iff {S' : Finset ι} (h : Detached R S p)
    (hS : ∀ k, k ≠ p → (k ∈ S' ↔ k ∈ S)) (hi : i ∈ R) (hip : i ≠ p) :
    IsOwner S' i o ↔ IsOwner S i o := by
  have key : ∀ {A B : Finset ι}, (∀ k, k ≠ p → (k ∈ A ↔ k ∈ B)) →
      (i < p → ∃ k ∈ B, i ≤ k ∧ k < p) → IsOwner B i o → IsOwner A i o := by
    intro A B hAB hlow ho
    have hop : o ≠ p := by
      rintro rfl
      obtain ⟨k, hk, hik, hkp⟩ := hlow (lt_of_le_of_ne ho.le hip)
      exact absurd (ho.least k hk hik) (not_le.mpr hkp)
    refine ⟨(hAB o hop).mpr ho.mem, ho.le, fun k hk hik => ?_⟩
    by_cases hkp : k = p
    · subst hkp
      obtain ⟨j, hj, hij, hjk⟩ := hlow (lt_of_le_of_ne hik hip)
      exact (ho.least j hj hij).trans hjk.le
    · exact ho.least k ((hAB k hkp).mp hk) hik
  constructor
  · intro ho
    refine key (fun k hk => (hS k hk).symm) (fun hlt => ?_) ho
    obtain ⟨k, hk, hik, hkp⟩ := h i hi hlt
    exact ⟨k, (hS k hkp.ne).mpr hk, hik, hkp⟩
  · exact key hS (h i hi)

/-! ## Shared arrays -/

/-- The array `l`, with an entry for each owner in `S`, holds `f` on `R`. -/
structure Shares (R S : Finset ι) (l : List α) (f : ι → Option α) : Prop where
  subset : S ⊆ R
  owned : ∀ i ∈ R, ∃ k ∈ S, i ≤ k
  length : l.length = S.card
  value : ∀ i ∈ R, ∀ o, IsOwner S i o → lookup S l o = f i

namespace Shares

variable {x : α}

theorem lookup_owner (h : Shares R S l f) (hi : i ∈ R) (ho : IsOwner S i o) :
    l[rank S o]? = f i := by
  rw [← lookup_of_mem ho.mem, h.value i hi o ho]

theorem exists_owner (h : Shares R S l f) (hi : i ∈ R) : ∃ o, IsOwner S i o :=
  exists_isOwner (h.owned i hi)

theorem congr {f' : ι → Option α} (h : Shares R S l f) (hf : ∀ i ∈ R, f' i = f i) :
    Shares R S l f' where
  subset := h.subset
  owned := h.owned
  length := h.length
  value := fun i hi o ho => (h.value i hi o ho).trans (hf i hi).symm

theorem empty : Shares ∅ ∅ ([] : List α) f where
  subset := subset_refl _
  owned := by simp
  length := rfl
  value := by simp

/-- The first owner above a position is the owner of the next position. -/
theorem isOwner_iff_next {q : ι} (h : Shares R S l f) (hpq : p < q)
    (hnext : ∀ k ∈ R, p < k → q ≤ k) : IsOwner (S.erase p) p o ↔ IsOwner S q o := by
  have habove : ∀ k ∈ S.erase p, p ≤ k → q ≤ k := by
    intro k hk hpk
    obtain ⟨hkp, hkS⟩ := Finset.mem_erase.mp hk
    exact hnext k (h.subset hkS) (lt_of_le_of_ne hpk hkp.symm)
  constructor
  · intro ho
    refine ⟨Finset.mem_of_mem_erase ho.mem, habove o ho.mem ho.le, fun k hk hqk => ?_⟩
    exact ho.least k (Finset.mem_erase.mpr ⟨(hpq.trans_le hqk).ne', hk⟩) (hpq.le.trans hqk)
  · intro ho
    refine ⟨Finset.mem_erase.mpr ⟨(hpq.trans_le ho.le).ne', ho.mem⟩, hpq.le.trans ho.le, ?_⟩
    exact fun k hk hpk => ho.least k (Finset.mem_of_mem_erase hk) (habove k hk hpk)

/-- **A position that uses an entry** which is there anyhow. -/
theorem add_shared (h : Shares R S l f) (ho : IsOwner S p o) (hx : lookup S l o = some x) :
    Shares (insert p R) S l (Function.update f p (some x)) where
  subset := h.subset.trans (Finset.subset_insert p R)
  owned := by
    intro i hi
    rcases Finset.mem_insert.mp hi with rfl | hi
    · exact ⟨o, ho.mem, ho.le⟩
    · exact h.owned i hi
  length := h.length
  value := by
    intro i hi o' ho'
    by_cases hip : i = p
    · subst hip
      rw [Function.update_self, ho'.unique ho, hx]
    · rw [Function.update_of_ne hip]
      exact h.value i (Finset.mem_of_mem_insert_of_ne hi hip) o' ho'

/-- **A new owner**, from which the positions below are detached. -/
theorem add_owner (h : Shares R S l f) (hp : p ∉ R) (hd : Detached R S p) :
    Shares (insert p R) (insert p S) (l.insertIdx (rank S p) x)
      (Function.update f p (some x)) where
  subset := Finset.insert_subset_insert p h.subset
  owned := by
    intro i hi
    rcases Finset.mem_insert.mp hi with rfl | hi
    · exact ⟨i, Finset.mem_insert_self i S, le_refl i⟩
    · obtain ⟨k, hk, hik⟩ := h.owned i hi
      exact ⟨k, Finset.mem_insert_of_mem hk, hik⟩
  length := by
    have hpS : p ∉ S := fun hpS => hp (h.subset hpS)
    rw [List.length_insertIdx_of_le_length (h.length ▸ rank_le_card S p), h.length,
      Finset.card_insert_of_notMem hpS]
  value := by
    intro i hi o ho
    have hpS : p ∉ S := fun hpS => hp (h.subset hpS)
    rw [lookup_insert h.length hpS]
    by_cases hip : i = p
    · subst hip
      rw [if_pos (ho.unique (isOwner_self (Finset.mem_insert_self i S))), Function.update_self]
    · have hiR := Finset.mem_of_mem_insert_of_ne hi hip
      have hmem : ∀ k, k ≠ p → (k ∈ insert p S ↔ k ∈ S) := fun k hk => by
        rw [Finset.mem_insert, or_iff_right hk]
      have hoS : IsOwner S i o := (hd.isOwner_iff hmem hiR hip).mp ho
      have hop : o ≠ p := fun hop => hpS (hop ▸ hoS.mem)
      rw [if_neg hop, Function.update_of_ne hip]
      exact h.value i hiR o hoS

/-- **Another entry for an owner** from which the positions below are detached. -/
theorem set_owner (h : Shares R S l f) (hp : p ∈ S) (hd : Detached R S p) :
    Shares R S (l.set (rank S p) x) (Function.update f p (some x)) where
  subset := h.subset
  owned := h.owned
  length := by rw [List.length_set, h.length]
  value := by
    intro i hi o ho
    rw [lookup_set h.length hp]
    by_cases hip : i = p
    · subst hip
      rw [if_pos (ho.unique (isOwner_self hp)), Function.update_self]
    · have hop : o ≠ p := by
        rintro rfl
        obtain ⟨k, hk, hik, hko⟩ := hd i hi (lt_of_le_of_ne ho.le hip)
        exact absurd (ho.least k hk hik) (not_le.mpr hko)
      rw [if_neg hop, Function.update_of_ne hip]
      exact h.value i hi o ho

/-- **A position without an entry of its own** goes. -/
theorem drop_shared (h : Shares R S l f) (hp : p ∉ S) : Shares (R.erase p) S l f where
  subset := fun _ hk => Finset.mem_erase.mpr ⟨fun hkp => hp (hkp ▸ hk), h.subset hk⟩
  owned := fun i hi => h.owned i (Finset.mem_of_mem_erase hi)
  length := h.length
  value := fun i hi => h.value i (Finset.mem_of_mem_erase hi)

/-- **An owner goes**, and the positions below are detached from it or find an equal entry
at the next owner. -/
theorem drop_owner (h : Shares R S l f) (hp : p ∈ S)
    (hd : Detached R S p ∨ ∃ o, IsOwner (S.erase p) p o ∧ lookup S l o = f p) :
    Shares (R.erase p) (S.erase p) (l.eraseIdx (rank S p)) f where
  subset := Finset.erase_subset_erase p h.subset
  owned := by
    intro i hi
    obtain ⟨hip, hiR⟩ := Finset.mem_erase.mp hi
    obtain ⟨o, ho⟩ := h.exists_owner hiR
    by_cases hop : o = p
    · subst hop
      rcases hd with hd | ⟨o', ho', -⟩
      · obtain ⟨k, hk, hik, hko⟩ := hd i hiR (lt_of_le_of_ne ho.le hip)
        exact ⟨k, Finset.mem_erase.mpr ⟨hko.ne, hk⟩, hik⟩
      · exact ⟨o', ho'.mem, ho.le.trans ho'.le⟩
    · exact ⟨o, Finset.mem_erase.mpr ⟨hop, ho.mem⟩, ho.le⟩
  length := by
    rw [List.length_eraseIdx_of_lt (h.length ▸ rank_lt_card hp), h.length,
      Finset.card_erase_of_mem hp]
  value := by
    intro i hi o ho
    obtain ⟨hip, hiR⟩ := Finset.mem_erase.mp hi
    have hop : o ≠ p := (Finset.mem_erase.mp ho.mem).1
    rw [lookup_erase hp, if_neg hop]
    obtain ⟨o', ho'⟩ := h.exists_owner hiR
    by_cases hop' : o' = p
    · subst hop'
      rcases hd with hd | ⟨u, hu, hval⟩
      · obtain ⟨k, hk, hik, hko⟩ := hd i hiR (lt_of_le_of_ne ho'.le hip)
        exact absurd (ho'.least k hk hik) (not_le.mpr hko)
      · -- the next owner is also the first one that `i` is left with
        have hiu : IsOwner (S.erase o') i u := by
          refine ⟨hu.mem, ho'.le.trans hu.le, fun k hk hik => hu.least k hk ?_⟩
          exact ho'.least k (Finset.mem_of_mem_erase hk) hik
        rw [ho.unique hiu, hval, ← h.value o' (h.subset hp) o' (isOwner_self hp),
          h.value i hiR o' ho']
    · have hoS : IsOwner S i o := by
        refine ⟨Finset.mem_of_mem_erase ho.mem, ho.le, fun k hk hik => ?_⟩
        by_cases hkp : k = p
        · have hle := ho'.least k hk hik
          exact (ho.least o' (Finset.mem_erase.mpr ⟨hop', ho'.mem⟩) ho'.le).trans hle
        · exact ho.least k (Finset.mem_erase.mpr ⟨hkp, hk⟩) hik
      exact h.value i hiR o hoS

/-! ### Beside the array that shares nothing -/

/-- The entries are some of those of the array with one for each position. -/
theorem coe_le {l' : List α} (h : Shares R S l (lookup R l')) (hl : l'.length = R.card) :
    (l : Multiset α) ≤ l' := by
  have hself : S.val.map (lookup S l) = S.val.map (lookup R l') :=
    Multiset.map_congr rfl fun o ho => h.value o (h.subset ho) o (isOwner_self ho)
  rw [← Multiset.map_le_map_iff (Option.some_injective α), Multiset.map_coe, Multiset.map_coe,
    ← map_lookup hl, ← map_lookup h.length, hself]
  exact Multiset.map_le_map (Finset.val_le_iff.mpr h.subset)

/-- Each of these is an entry. -/
theorem mem_of_mem {l' : List α} (h : Shares R S l (lookup R l')) (hl : l'.length = R.card)
    (hx : x ∈ l') : x ∈ l := by
  obtain ⟨i, hi, hix⟩ := Multiset.mem_map.mp
    (map_lookup hl ▸ Multiset.mem_coe.mpr (List.mem_map_of_mem hx))
  obtain ⟨o, ho⟩ := h.exists_owner hi
  exact List.mem_of_getElem? ((h.lookup_owner hi ho).trans hix)

end Shares

end Ranked
