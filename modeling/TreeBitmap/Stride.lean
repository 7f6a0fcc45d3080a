import TreeBitmap.Edits
import TreeBitmap.Lib.BitString
import TreeBitmap.Lib.LongestMatch
import TreeBitmap.Lib.Run

/-!
# Positions inside a node

Bit `inlPos t` of `internal` stands for the bit string `t`, which has fewer than
`STRIDE` bits, and bit `value t` of `external` for a `t` of exactly `STRIDE` bits.
Read through this numbering, `tree_function` and `find_overlap_in_node` compute a
longest match among the strings of one node.

## Main definitions

* `inlPos t` — the position of a short bit string.
* `stride_induction` — induction over a string, `STRIDE` bits at a time.
* `foldlM_positions` — a loop over all short strings.
* `treeFunction_eq`, `findOverlapInNode_eq` — the two searches inside a node.
-/

namespace TreeBitmap

open BitString LongestMatch

/-- The position of a bit string in `internal`. -/
def inlPos (t : List Bool) : ℕ := countInlBitmap (value t) t.length

theorem inlPos_eq (t : List Bool) : inlPos t + 1 = 2 ^ t.length + value t := by
  have := Nat.one_le_two_pow (n := t.length)
  rw [inlPos, countInlBitmap]
  omega

/-- Longer strings have higher positions. -/
theorem inlPos_lt_inlPos {s t : List Bool} (h : s.length < t.length) : inlPos s < inlPos t := by
  have hs := value_lt s
  have hpow : 2 ^ (s.length + 1) ≤ 2 ^ t.length := Nat.pow_le_pow_right (by omega) h
  have es := inlPos_eq s
  have et := inlPos_eq t
  rw [pow_succ] at hpow
  omega

theorem inlPos_injective : Function.Injective inlPos := by
  intro s t h
  rcases lt_trichotomy s.length t.length with hlt | heq | hgt
  · exact absurd h (inlPos_lt_inlPos hlt).ne
  · have es := inlPos_eq s
    have et := inlPos_eq t
    rw [h, heq] at es
    exact value_injective heq (by omega)
  · exact absurd h (inlPos_lt_inlPos hgt).ne'

theorem inlPos_lt_bits {t : List Bool} (h : t.length < 6) : inlPos t < 63 := by
  have := inlPos_lt_inlPos (s := t) (t := [true, false, false, false, false, false]) (by simpa)
  have he : inlPos [true, false, false, false, false, false] = 95 := by decide
  have hv := value_lt t
  have hpow : 2 ^ t.length ≤ 2 ^ 5 := Nat.pow_le_pow_right (by omega) (by omega)
  have ht := inlPos_eq t
  omega

theorem inlPos_nil : inlPos [] = 0 := rfl

/-- Induction over a string, as the tries take it apart. -/
@[elab_as_elim]
theorem stride_induction {P : List Bool → Prop} (leaf : ∀ s : List Bool, s.length < 6 → P s)
    (inner : ∀ t s : List Bool, t.length = 6 → P s → P (t ++ s)) (s : List Bool) : P s := by
  induction hs : s.length using Nat.strong_induction_on generalizing s with
  | _ k ih =>
      by_cases hlt : s.length < 6
      · exact leaf s hlt
      · have ht : (s.take 6).length = 6 := by
          rw [List.length_take]
          omega
        have hrest := ih (k - 6) (by omega) (s.drop 6) (by rw [List.length_drop]; omega)
        rw [← List.take_append_drop 6 s]
        exact inner _ _ ht hrest

/-- **The double loop over the short strings**, by length and then by value, goes through
the positions one after the other. -/
theorem foldlM_positions {σ : Type} {f : σ → ℕ → ℕ → Option σ} (P : ℕ → σ → Prop) {s : σ}
    (h0 : P 0 s) (hstep : ∀ t s, t.length < 6 → P (inlPos t) s →
      ∃ s', f s t.length (value t) = some s' ∧ P (inlPos t + 1) s') :
    ∃ s', (List.range STRIDE).foldlM (fun s cidr =>
        (List.range (2 ^ cidr)).foldlM (fun s bit => f s cidr bit) s) s = some s' ∧ P 63 s' := by
  refine Run.foldlM_range (fun cidr s => P (2 ^ cidr - 1) s) h0 fun cidr s hcidr hs => ?_
  have hpow := Nat.one_le_two_pow (n := cidr)
  have hend : 2 ^ (cidr + 1) - 1 = 2 ^ cidr - 1 + 2 ^ cidr := by
    rw [pow_succ]
    omega
  rw [hend]
  refine Run.foldlM_range (fun bit s => P (2 ^ cidr - 1 + bit) s) hs fun bit s hbit hs => ?_
  obtain ⟨t, rfl, rfl⟩ := exists_value_eq hbit
  have hpos : 2 ^ t.length - 1 + value t = inlPos t := by
    have := inlPos_eq t
    omega
  rw [hpos] at hs
  rw [← add_assoc, hpos]
  exact hstep t s hcidr hs

/-- `stride >> 1` drops the last bit. -/
theorem value_dropLast (t : List Bool) : value t.dropLast = value t >>> 1 := by
  induction t using List.reverseRecOn with
  | nil => rfl
  | append_singleton t b _ =>
      rw [List.dropLast_concat, value_concat, Nat.shiftRight_one]
      have := Bool.toNat_lt b
      omega

/-- `stride >> k` drops the last `k` bits. -/
theorem value_take_sub (t : List Bool) (k : ℕ) :
    value (t.take (t.length - k)) = value t >>> k := by
  induction k with
  | zero => simp
  | succ k ih =>
      rw [Nat.shiftRight_succ, ← Nat.shiftRight_one, ← ih, ← value_dropLast, List.dropLast_eq_take,
        List.take_take, List.length_take]
      congr 2
      omega

/-! ## `tree_function` -/

/-- A table and a bitmap that know the same strings. -/
def Marks {ν : Type} (b : Bitmap) (T : Table Bool ν) : Prop :=
  ∀ t : List Bool, t.length < 6 → (inlPos t ∈ members b ↔ T t ≠ none)

theorem members_fastLookupInit {t : List Bool} (ht : t.length < 6) (b : Bitmap) (i : ℕ) :
    i ∈ members (fastLookupInit (t.length + 1) (value t) b) ↔
      i ∈ members b ∨ ∃ u, u <+: t ∧ inlPos u = i := by
  induction t using List.reverseRecOn generalizing b with
  | nil =>
      rw [List.length_nil, fastLookupInit, fastLookupInit, members_setBitmap (by decide)]
      simp [inlPos_nil, eq_comm, or_comm, countInlBitmap]
  | append_singleton t a ih =>
      have hlen : (t ++ [a]).length = t.length + 1 := List.length_append
      have hpos : countInlBitmap (value (t ++ [a])) (t.length + 1) = inlPos (t ++ [a]) := by
        rw [inlPos, hlen]
      have hlt := inlPos_lt_bits ht
      rw [hlen] at ht ⊢
      rw [fastLookupInit, ← value_dropLast, List.dropLast_concat, ih (by omega), hpos,
        members_setBitmap (by omega), Finset.mem_insert]
      simp only [List.prefix_concat_iff]
      constructor
      · intro h
        rcases h with (rfl | h) | ⟨u, hu, rfl⟩
        · exact .inr ⟨_, .inl rfl, rfl⟩
        · exact .inl h
        · exact .inr ⟨u, .inr hu, rfl⟩
      · intro h
        rcases h with h | ⟨u, rfl | hu, rfl⟩
        · exact .inl (.inr h)
        · exact .inl (.inl rfl)
        · exact .inr ⟨u, hu, rfl⟩

/-- The table `fct` holds, for each stride, the positions of its proper prefixes. -/
theorem mem_members_fct {s : List Bool} (hs : s.length = 6) (i : ℕ) :
    i ∈ members (fct (value s >>> 1)) ↔ ∃ u, u <+: s.dropLast ∧ inlPos u = i := by
  have hlen : s.dropLast.length = 5 := by
    rw [List.length_dropLast, hs]
  have := members_fastLookupInit (t := s.dropLast) (by omega) 0 i
  rw [hlen, value_dropLast] at this
  simpa [fct] using this

/-- The leading one of a bitmap is a member. -/
theorem mem_of_clz {b : Bitmap} (hb : b ≠ 0#64) : 63 - b.clz.toNat ∈ members b := by
  rw [mem_members]
  exact BitVec.getLsbD_true_clz_of_ne_zero (by decide) hb

/-- The leading one of a bitmap is its largest member. -/
theorem clz_eq_of_max {b : Bitmap} {i : ℕ} (hi : i ∈ members b) (hmax : ∀ j ∈ members b, j ≤ i) :
    (BITMAP_BITS : ℤ) - 1 - b.clz.toNat = i := by
  have hb : b ≠ 0#64 := by
    intro h
    rw [h, members_zero] at hi
    exact Finset.notMem_empty i hi
  have hle := hmax _ (mem_of_clz hb)
  have hlow : b.toNat < 2 ^ (64 - b.clz.toNat) := BitVec.toNat_lt_two_pow_sub_clz
  have hge : 2 ^ i ≤ b.toNat := Nat.ge_two_pow_of_testBit (mem_members.mp hi)
  have hlt : i < 64 - b.clz.toNat := (Nat.pow_lt_pow_iff_right (by decide)).mp (hge.trans_lt hlow)
  have hclz : b.clz.toNat < 64 := by omega
  simp only [BITMAP_BITS, STRIDE_eq]
  omega

/-- What `tree_function` returns is a position of the bitmap. -/
theorem mem_of_treeFunction {b : Bitmap} {stride : ℕ} (h : treeFunction b stride ≠ -1) :
    (treeFunction b stride).toNat ∈ members b := by
  simp only [treeFunction] at h ⊢
  split_ifs at h ⊢ with hret
  · have hmem := mem_of_clz hret
    have hpos : ((BITMAP_BITS : ℕ) - (1 : ℤ) - (fct (stride >>> 1) &&& b).clz.toNat).toNat =
        63 - (fct (stride >>> 1) &&& b).clz.toNat := by
      simp only [BITMAP_BITS, STRIDE_eq]
      omega
    rw [mem_members, BitVec.getLsbD_and, Bool.and_eq_true] at hmem
    rw [hpos, mem_members]
    exact hmem.2
  · exact absurd rfl h

/-- **`tree_function` finds the longest match** of the stride among the strings of
the node. -/
theorem treeFunction_eq {ν : Type} {b : Bitmap} {T : Table Bool ν} (hT : Marks b T)
    {s : List Bool} (hs : s.length = 6) :
    treeFunction b (value s) = (longest T s.dropLast).elim (-1) fun m => (inlPos m.1 : ℤ) := by
  have hshort : ∀ u : List Bool, u <+: s.dropLast → u.length < 6 := by
    intro u hu
    have := hu.length_le
    rw [List.length_dropLast, hs] at this
    omega
  have hmem : ∀ i, i ∈ members (fct (value s >>> 1) &&& b) ↔
      ∃ u, u <+: s.dropLast ∧ inlPos u = i ∧ T u ≠ none := by
    intro i
    rw [mem_members, BitVec.getLsbD_and, Bool.and_eq_true, ← mem_members, ← mem_members,
      mem_members_fct hs]
    constructor
    · intro h
      obtain ⟨⟨u, hu, rfl⟩, hb⟩ := h
      exact ⟨u, hu, rfl, (hT u (hshort u hu)).mp hb⟩
    · intro h
      obtain ⟨u, hu, rfl, hne⟩ := h
      exact ⟨⟨u, hu, rfl⟩, (hT u (hshort u hu)).mpr hne⟩
  rw [treeFunction]
  rcases hl : longest T s.dropLast with _ | ⟨t, v⟩
  · have hnone := longest_eq_none_iff.mp hl
    have hzero : fct (value s >>> 1) &&& b = 0#64 := by
      rw [← members_eq_empty_iff, Finset.eq_empty_iff_forall_notMem]
      intro i hi
      obtain ⟨u, hu, -, hne⟩ := (hmem i).mp hi
      exact hne (hnone u hu)
    simp [hzero]
  · obtain ⟨ht, hv, hmax⟩ := longest_eq_some_iff.mp hl
    have hit : inlPos t ∈ members (fct (value s >>> 1) &&& b) :=
      (hmem _).mpr ⟨t, ht, rfl, by simp [hv]⟩
    have hne : fct (value s >>> 1) &&& b ≠ 0#64 := by
      intro h
      rw [h] at hit
      exact absurd hit (by simp)
    rw [if_pos hne, clz_eq_of_max hit]
    · rfl
    · intro j hj
      obtain ⟨u, hu, rfl, hTu⟩ := (hmem j).mp hj
      by_contra hlt
      have hlen : t.length ≤ u.length := by
        by_contra hgt
        exact hlt (inlPos_lt_inlPos (by omega)).le
      have : u = t := by
        have hut := hmax u hu hTu
        exact (List.prefix_of_prefix_length_le hu ht hut).eq_of_length (by omega)
      exact hlt (this ▸ le_refl _)

/-! ## `find_overlap_in_node` -/

theorem findOverlapLoop_eq {ν : Type} {b : Bitmap} {T : Table Bool ν} (hT : Marks b T)
    {s : List Bool} (hnil : s ≠ []) (hs : s.length ≤ 6) (mask : ℕ) :
    findOverlapLoop b s.length (value s) mask =
      (longest T s.dropLast).elim ((-1 : ℤ), 0) fun m => ((inlPos m.1 : ℤ), m.1.length) := by
  induction s using List.reverseRecOn generalizing mask with
  | nil => exact absurd rfl hnil
  | append_singleton s a ih =>
      have hlen : (s ++ [a]).length = s.length + 1 := List.length_append
      rw [hlen] at hs ⊢
      have hpos : countInlBitmap (value s) s.length = inlPos s := rfl
      rw [findOverlapLoop, ← value_dropLast, List.dropLast_concat, hpos]
      have htest : testBitmap b (inlPos s) ↔ T s ≠ none := testBitmap_iff.trans (hT s (by omega))
      induction s using List.reverseRecOn with
      | nil =>
          cases hv : T [] <;> simp_all [longest, findOverlapLoop]
      | append_singleton s c _ =>
          rcases hv : T (s ++ [c]) with _ | v
          · have hfalse : ¬ testBitmap b (inlPos (s ++ [c])) := fun h => htest.mp h hv
            rw [if_neg hfalse, ih (by simp) (by omega), List.dropLast_concat,
              longest_concat_of_none hv]
          · have htrue : testBitmap b (inlPos (s ++ [c])) := htest.mpr (by simp [hv])
            rw [if_pos htrue, longest_concat_of_some hv]
            rfl

/-- **`find_overlap_in_node` finds the longest match** among the strings that are
shorter than the limit, and its length. -/
theorem findOverlapInNode_eq {ν : Type} {b : Bitmap} {T : Table Bool ν} (hT : Marks b T)
    {s : List Bool} (hs : s.length = 6) (mask : ℕ) {limit : ℕ} (hpos : 0 < limit)
    (hlimit : limit ≤ 6) :
    ∃ mask', findOverlapInNode b (value s) mask limit =
      (longest T (s.take (limit - 1))).elim ((-1 : ℤ), mask') fun m =>
        ((inlPos m.1 : ℤ), m.1.length) := by
  have htake : (s.take limit).dropLast = s.take (limit - 1) := by
    rw [List.dropLast_eq_take, List.take_take, List.length_take, hs]
    congr 1
    omega
  have hlen : (s.take limit).length = limit := by
    rw [List.length_take, hs]
    omega
  rw [findOverlapInNode]
  by_cases hb : b = 0#64
  · refine ⟨mask, ?_⟩
    have hnone : longest T (s.take (limit - 1)) = none := by
      apply longest_eq_none_iff.mpr
      intro u hu
      have hu' := hu.length_le
      rw [List.length_take] at hu'
      by_contra hne
      have := (hT u (by omega)).mpr hne
      rw [hb] at this
      exact absurd this (by simp)
    rw [if_pos hb, hnone]
    rfl
  · refine ⟨0, ?_⟩
    have hval : value s >>> (STRIDE - limit) = value (s.take limit) := by
      have htake := value_take_sub s (6 - limit)
      have hsub : 6 - (6 - limit) = limit := by omega
      rw [hs, hsub] at htake
      rw [htake]
      rfl
    have hloop := findOverlapLoop_eq hT (s := s.take limit) (by
      intro h
      rw [h] at hlen
      simp at hlen
      omega) (by omega) mask
    rw [if_neg hb, hval, ← htake, ← hloop, hlen]

end TreeBitmap
