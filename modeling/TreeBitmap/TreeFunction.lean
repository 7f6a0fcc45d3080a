import TreeBitmap.Stride

/-!
# `tree_function`, two ways and in two builds (`lib/mb_node.c`)

`tree_function` comes in two versions.  The one with `FAST_TREE_FUNCTION` reads the positions
of all prefixes of a stride from a table and takes the highest bit that is set; the other goes
through the prefixes in a loop.  And it is built for two widths of `long`, with bitmaps of 64
or of 32 bits.

The highest bit is found by `__builtin_clzll`, which counts the zeros of 64 bits in either
build.  In a bitmap of 32 bits the upper half is counted as well, and the position comes out
32 too low.

## Main definitions

* `Build` — the two configurations of `mb_node.h`.
* `Build.fastTreeFunction`, `Build.loopTreeFunction` — the two versions.
* `Build.LongestPrefix` — what both are to return.
* `Build.fastTreeFunction_eq` — what the fast one returns.
* `treeFunction_agrees_iff` — **when that is right**.
-/

namespace TreeBitmap

/-- The configurations of `mb_node.h`: `__SIZEOF_LONG__ == 8`, and the other one. -/
inductive Build
  | lp64
  | ilp32
  deriving DecidableEq, Repr

/-- The position of the first `k` bits of a string of `len` bits. -/
def prefixPos (len stride k : ℕ) : ℕ := countInlBitmap (stride >>> (len - k)) k

theorem prefixPos_add_one (len stride k : ℕ) :
    prefixPos len stride k + 1 = 2 ^ k + stride >>> (len - k) := by
  have := Nat.one_le_two_pow (n := k)
  rw [prefixPos]
  generalize stride >>> (len - k) = low
  rw [countInlBitmap]
  omega

section Positions

variable {len stride k k' : ℕ}

theorem shiftRight_lt (h : stride < 2 ^ len) (hk : k ≤ len) : stride >>> (len - k) < 2 ^ k := by
  rw [Nat.shiftRight_eq_div_pow]
  apply Nat.div_lt_of_lt_mul
  rwa [← pow_add, Nat.sub_add_cancel hk]

/-- Longer prefixes have higher positions. -/
theorem prefixPos_lt_prefixPos (h : stride < 2 ^ len) (hk : k < k') (hk' : k' ≤ len) :
    prefixPos len stride k < prefixPos len stride k' := by
  have hlow := shiftRight_lt h (hk.le.trans hk')
  have hpow : 2 ^ (k + 1) ≤ 2 ^ k' := Nat.pow_le_pow_right (by decide) hk
  have he := prefixPos_add_one len stride k
  have he' := prefixPos_add_one len stride k'
  rw [pow_succ] at hpow
  generalize stride >>> (len - k) = low at hlow he
  generalize stride >>> (len - k') = low' at he'
  omega

/-- The positions of the proper prefixes leave out the highest one. -/
theorem prefixPos_lt (h : stride < 2 ^ len) (hk : k < len) :
    prefixPos len stride k + 1 < 2 ^ len := by
  have hlow := shiftRight_lt h hk.le
  have hpow : 2 ^ (k + 1) ≤ 2 ^ len := Nat.pow_le_pow_right (by decide) hk
  rw [pow_succ] at hpow
  rw [prefixPos_add_one]
  generalize stride >>> (len - k) = low at hlow ⊢
  omega

/-- Without the last bit, the prefixes are the same. -/
theorem prefixPos_shiftRight (hk : k ≤ len) :
    prefixPos len (stride >>> 1) k = prefixPos (len + 1) stride k := by
  have hlen : len + 1 - k = 1 + (len - k) := by omega
  rw [prefixPos, prefixPos, hlen, Nat.shiftRight_add]

/-- All bits but the last. -/
theorem countInlBitmap_shiftRight (len stride : ℕ) :
    countInlBitmap (stride >>> 1) len = prefixPos (len + 1) stride len := by
  rw [prefixPos, Nat.add_sub_cancel_left]

end Positions

namespace Build

variable (b : Build)

/-- The width of `BITMAP_TYPE`: `uint64_t` or `uint32_t`. -/
def width : Build → ℕ
  | lp64 => 64
  | ilp32 => 32

/-- `BITMAP_TYPE`. -/
abbrev BITMAP_TYPE : Type := BitVec b.width

/-- `STRIDE`. -/
def STRIDE : Build → ℕ
  | lp64 => 6
  | ilp32 => 5

/-- `BITMAP_BITS`. -/
def BITMAP_BITS : ℕ := 1 <<< b.STRIDE

/-- `test_bitmap`: `1ULL << pos` has 64 bits, and the result is converted. -/
def testBitmap (bitmap : b.BITMAP_TYPE) (pos : ℕ) : Bool :=
  (bitmap.setWidth 64 &&& (1#64 <<< pos)).setWidth b.width != 0

/-- `set_bitmap`. -/
def setBitmap (bitmap : b.BITMAP_TYPE) (pos : ℕ) : b.BITMAP_TYPE :=
  (bitmap.setWidth 64 ||| (1#64 <<< pos)).setWidth b.width

/-- The inner loop of `fast_lookup_init`, with `j - 1` for its counter. -/
def fastLookupInit : ℕ → ℕ → b.BITMAP_TYPE → b.BITMAP_TYPE
  | 0, _, x => x
  | j + 1, stride, x => fastLookupInit j (stride >>> 1) (b.setBitmap x (countInlBitmap stride j))

/-- The table `fct`. -/
def fct (i : ℕ) : b.BITMAP_TYPE := b.fastLookupInit b.STRIDE i 0

/-- `tree_function` with `FAST_TREE_FUNCTION`. -/
def fastTreeFunction (bitmap : b.BITMAP_TYPE) (stride : ℕ) : ℤ :=
  let ret := b.fct (stride >>> 1) &&& bitmap
  if ret ≠ 0 then
    -- the argument of `__builtin_clzll` is promoted to 64 bits
    let pos := (ret.setWidth 64).clz.toNat
    b.BITMAP_BITS - 1 - pos
  else -1

/-- The loop of the other `tree_function`, with `i - 1` for its counter. -/
def treeFunctionLoop (bitmap : b.BITMAP_TYPE) : ℕ → ℕ → ℤ
  | 0, _ => -1
  | i + 1, stride =>
      let stride := stride >>> 1
      let pos := countInlBitmap stride i
      if b.testBitmap bitmap pos then pos else treeFunctionLoop bitmap i stride

/-- `tree_function` without `FAST_TREE_FUNCTION`. -/
def loopTreeFunction (bitmap : b.BITMAP_TYPE) (stride : ℕ) : ℤ :=
  if bitmap = 0 then -1 else b.treeFunctionLoop bitmap b.STRIDE stride

/-- The position of the longest prefix of a string of `len` bits, below `len` bits, that is
set in the bitmap, or `-1` if there is none. -/
def LongestPrefix (bitmap : b.BITMAP_TYPE) (len stride : ℕ) (r : ℤ) : Prop :=
  (∃ k < len, r = prefixPos len stride k ∧ b.testBitmap bitmap (prefixPos len stride k) = true ∧
    ∀ k', k < k' → k' < len → b.testBitmap bitmap (prefixPos len stride k') = false) ∨
  r = -1 ∧ ∀ k < len, b.testBitmap bitmap (prefixPos len stride k) = false

/-! ## One word -/

variable {b}

theorem width_eq : b.width = 2 ^ b.STRIDE := by
  cases b <;> rfl

theorem width_le : b.width ≤ 64 := by
  cases b <;> decide

theorem BITMAP_BITS_eq : b.BITMAP_BITS = b.width := by
  cases b <;> rfl

theorem getLsbD_setBitmap {x : b.BITMAP_TYPE} {pos i : ℕ} (hpos : pos < b.width) :
    (b.setBitmap x pos).getLsbD i = true ↔ x.getLsbD i = true ∨ i = pos := by
  have hle := width_le (b := b)
  rw [setBitmap, BitVec.getLsbD_setWidth, BitVec.getLsbD_or, BitVec.getLsbD_setWidth,
    BitVec.getLsbD_shiftLeft, BitVec.getLsbD_one]
  constructor
  · intro h
    simp only [Bool.and_eq_true, Bool.or_eq_true, decide_eq_true_eq, Bool.not_eq_true',
      decide_eq_false_iff_not] at h
    obtain ⟨-, ⟨-, hx⟩ | ⟨⟨-, hge⟩, -, heq⟩⟩ := h
    · exact .inl hx
    · exact .inr (by omega)
  · rintro (hx | rfl)
    · have hi := BitVec.lt_of_getLsbD hx
      simp [hx, hi, hi.trans_le hle]
    · simp [hpos, hpos.trans_le hle]

theorem testBitmap_eq {x : b.BITMAP_TYPE} {pos : ℕ} (hpos : pos < b.width) :
    b.testBitmap x pos = x.getLsbD pos := by
  have hle := width_le (b := b)
  have hbit : ∀ i, ((x.setWidth 64 &&& (1#64 <<< pos)).setWidth b.width).getLsbD i =
      (x.getLsbD pos && decide (i = pos)) := by
    intro i
    rw [BitVec.getLsbD_setWidth, BitVec.getLsbD_and, BitVec.getLsbD_setWidth,
      BitVec.getLsbD_shiftLeft, BitVec.getLsbD_one]
    by_cases hi : i = pos
    · rw [hi]
      simp [hpos, hpos.trans_le hle]
    · simp only [hi, decide_false, Bool.and_false]
      by_cases hlt : i < pos
      · simp [hlt]
      · have : ¬ i - pos = 0 := by omega
        simp [this]
  rw [testBitmap]
  cases hx : x.getLsbD pos
  · have hzero : (x.setWidth 64 &&& (1#64 <<< pos)).setWidth b.width = 0 := by
      apply BitVec.eq_of_getLsbD_eq
      intro i _
      rw [hbit, hx, Bool.false_and, BitVec.ofNat_eq_ofNat, BitVec.getLsbD_zero]
    rw [hzero, bne_self_eq_false]
  · rw [bne_iff_ne]
    intro hzero
    have := hbit pos
    rw [hzero, hx] at this
    simp at this

/-! ## The loop -/

theorem LongestPrefix.unique {bitmap : b.BITMAP_TYPE} {len stride : ℕ} {r r' : ℤ}
    (h : b.LongestPrefix bitmap len stride r) (h' : b.LongestPrefix bitmap len stride r') :
    r = r' := by
  obtain ⟨k, hk, rfl, hset, hmax⟩ | ⟨rfl, hnone⟩ := h <;>
  obtain ⟨k', hk', rfl, hset', hmax'⟩ | ⟨rfl, hnone'⟩ := h'
  · rcases lt_trichotomy k k' with hlt | rfl | hgt
    · rw [hmax k' hlt hk'] at hset'
      cases hset'
    · rfl
    · rw [hmax' k hgt hk] at hset
      cases hset
  · rw [hnone' k hk] at hset
    cases hset
  · rw [hnone k' hk'] at hset'
    cases hset'
  · rfl

theorem treeFunctionLoop_spec (bitmap : b.BITMAP_TYPE) (len stride : ℕ) :
    b.LongestPrefix bitmap len stride (b.treeFunctionLoop bitmap len stride) := by
  induction len generalizing stride with
  | zero => exact .inr ⟨rfl, fun k hk => absurd hk (Nat.not_lt_zero k)⟩
  | succ len ih =>
      rw [treeFunctionLoop, countInlBitmap_shiftRight]
      by_cases hset : b.testBitmap bitmap (prefixPos (len + 1) stride len) = true
      · rw [if_pos hset]
        exact .inl ⟨len, Nat.lt_succ_self len, rfl, hset, fun k' hk hk' => by omega⟩
      · rw [if_neg hset]
        rw [Bool.not_eq_true] at hset
        -- the longest proper prefix is out, and the others are those of the shifted stride
        obtain ⟨k, hk, hr, hk1, hk2⟩ | ⟨hr, hnone⟩ := ih (stride >>> 1)
        · rw [prefixPos_shiftRight hk.le] at hr hk1
          refine .inl ⟨k, hk.trans (Nat.lt_succ_self len), hr, hk1, fun k' hlt hlen => ?_⟩
          rcases Nat.lt_succ_iff_lt_or_eq.mp hlen with hlen | rfl
          · rw [← prefixPos_shiftRight hlen.le]
            exact hk2 k' hlt hlen
          · exact hset
        · refine .inr ⟨hr, fun k hk => ?_⟩
          rcases Nat.lt_succ_iff_lt_or_eq.mp hk with hk | rfl
          · rw [← prefixPos_shiftRight hk.le]
            exact hnone k hk
          · exact hset

/-- **The loop returns the longest prefix that is set**, in both builds. -/
theorem loopTreeFunction_spec (bitmap : b.BITMAP_TYPE) (stride : ℕ) :
    b.LongestPrefix bitmap b.STRIDE stride (b.loopTreeFunction bitmap stride) := by
  rw [loopTreeFunction]
  split_ifs with hzero
  · refine .inr ⟨rfl, fun k _ => ?_⟩
    rw [hzero, testBitmap]
    simp
  · exact treeFunctionLoop_spec bitmap b.STRIDE stride

/-! ## The table -/

/-- The inner loop sets the positions of the proper prefixes. -/
theorem getLsbD_fastLookupInit {len stride : ℕ} (hlen : len ≤ b.STRIDE) (h : stride < 2 ^ len)
    (x : b.BITMAP_TYPE) (i : ℕ) :
    (b.fastLookupInit len (stride >>> 1) x).getLsbD i = true ↔
      x.getLsbD i = true ∨ ∃ k < len, i = prefixPos len stride k := by
  induction len generalizing stride x with
  | zero => simp [fastLookupInit]
  | succ len ih =>
      have hpos := prefixPos_lt h (Nat.lt_succ_self len)
      have hwidth : 2 ^ (len + 1) ≤ b.width := by
        rw [width_eq]
        exact Nat.pow_le_pow_right (by decide) hlen
      have hshift : stride >>> 1 < 2 ^ len := by
        rw [pow_succ] at h
        rw [Nat.shiftRight_one]
        omega
      rw [fastLookupInit, countInlBitmap_shiftRight, ih (by omega) hshift,
        getLsbD_setBitmap (by omega), or_assoc]
      refine or_congr_right ?_
      constructor
      · rintro (rfl | ⟨k, hk, rfl⟩)
        · exact ⟨len, Nat.lt_succ_self len, rfl⟩
        · exact ⟨k, hk.trans (Nat.lt_succ_self len), prefixPos_shiftRight hk.le⟩
      · rintro ⟨k, hk, rfl⟩
        rcases Nat.lt_succ_iff_lt_or_eq.mp hk with hk | rfl
        · exact .inr ⟨k, hk, (prefixPos_shiftRight hk.le).symm⟩
        · exact .inl rfl

/-- What is left of the table: the proper prefixes that are set. -/
theorem getLsbD_fct_and {bitmap : b.BITMAP_TYPE} {stride : ℕ} (h : stride < 2 ^ b.STRIDE) (i : ℕ) :
    (b.fct (stride >>> 1) &&& bitmap).getLsbD i = true ↔
      ∃ k < b.STRIDE, i = prefixPos b.STRIDE stride k ∧
        b.testBitmap bitmap (prefixPos b.STRIDE stride k) = true := by
  have hwidth : ∀ k < b.STRIDE, prefixPos b.STRIDE stride k < b.width := by
    intro k hk
    have := prefixPos_lt h hk
    rw [← width_eq] at this
    omega
  rw [BitVec.getLsbD_and, Bool.and_eq_true, fct, getLsbD_fastLookupInit le_rfl h,
    BitVec.ofNat_eq_ofNat, BitVec.getLsbD_zero]
  constructor
  · rintro ⟨hfalse | ⟨k, hk, rfl⟩, hset⟩
    · cases hfalse
    · rw [← testBitmap_eq (hwidth k hk)] at hset
      exact ⟨k, hk, rfl, hset⟩
  · rintro ⟨k, hk, rfl, hset⟩
    rw [testBitmap_eq (hwidth k hk)] at hset
    exact ⟨.inr ⟨k, hk, rfl⟩, hset⟩

/-- The conversion to 64 bits, for `__builtin_clzll`, adds zeros. -/
theorem mem_members_setWidth (x : b.BITMAP_TYPE) (i : ℕ) :
    i ∈ members (x.setWidth 64) ↔ x.getLsbD i = true := by
  rw [mem_members, BitVec.getLsbD_setWidth, Bool.and_eq_true, decide_eq_true_eq]
  refine and_iff_right_of_imp fun hi => ?_
  exact (BitVec.lt_of_getLsbD hi).trans_le width_le

/-- **What the fast version returns**: the position that the loop finds, short of it by the bits
that the bitmap lacks of 64. -/
theorem fastTreeFunction_eq {bitmap : b.BITMAP_TYPE} {stride : ℕ} (h : stride < 2 ^ b.STRIDE)
    {r : ℤ} (hr : b.LongestPrefix bitmap b.STRIDE stride r) :
    b.fastTreeFunction bitmap stride = if r = -1 then -1 else r - (64 - b.width) := by
  rw [fastTreeFunction]
  obtain ⟨k, hk, rfl, hset, hmax⟩ | ⟨rfl, hnone⟩ := hr
  · have hk1 := (getLsbD_fct_and h _).mpr ⟨k, hk, rfl, hset⟩
    have hne : b.fct (stride >>> 1) &&& bitmap ≠ 0 := by
      intro hzero
      rw [hzero, BitVec.ofNat_eq_ofNat, BitVec.getLsbD_zero] at hk1
      cases hk1
    have htop : ∀ j ∈ members ((b.fct (stride >>> 1) &&& bitmap).setWidth 64),
        j ≤ prefixPos b.STRIDE stride k := by
      intro j hj
      obtain ⟨k', hk', rfl, hset'⟩ := (getLsbD_fct_and h j).mp ((mem_members_setWidth _ j).mp hj)
      rcases Nat.lt_or_ge k k' with hlt | hge
      · rw [hmax k' hlt hk'] at hset'
        cases hset'
      · rcases hge.lt_or_eq with hlt | rfl
        · exact (prefixPos_lt_prefixPos h hlt hk.le).le
        · exact le_rfl
    have hclz := clz_eq_of_max ((mem_members_setWidth _ _).mpr hk1) htop
    have hneg : ((prefixPos b.STRIDE stride k : ℕ) : ℤ) ≠ -1 := by omega
    have hbits : (TreeBitmap.BITMAP_BITS : ℤ) = 64 := rfl
    rw [if_pos hne, if_neg hneg, ← hclz, BITMAP_BITS_eq, hbits]
    ring
  · have hzero : b.fct (stride >>> 1) &&& bitmap = 0 := by
      apply BitVec.eq_of_getLsbD_eq
      intro i _
      rw [BitVec.ofNat_eq_ofNat, BitVec.getLsbD_zero, Bool.eq_false_iff]
      intro hi
      obtain ⟨k, hk, -, hset⟩ := (getLsbD_fct_and h i).mp hi
      rw [hnone k hk] at hset
      cases hset
    rw [if_neg (not_not_intro hzero), if_pos rfl]

/-! ## The nodes of the other modules -/

theorem fastLookupInit_lp64 (j stride : ℕ) (x : Bitmap) :
    lp64.fastLookupInit j stride x = TreeBitmap.fastLookupInit j stride x := by
  induction j generalizing stride x with
  | zero => rfl
  | succ j ih =>
      have hset : lp64.setBitmap x (countInlBitmap stride j) =
          TreeBitmap.setBitmap x (countInlBitmap stride j) := rfl
      simp only [Build.fastLookupInit, TreeBitmap.fastLookupInit, hset]
      exact ih _ _

/-- In the 64-bit build, this is the `tree_function` of the nodes. -/
theorem fastTreeFunction_lp64 (bitmap : Bitmap) (stride : ℕ) :
    lp64.fastTreeFunction bitmap stride = treeFunction bitmap stride := by
  have hfct : lp64.fct (stride >>> 1) = TreeBitmap.fct (stride >>> 1) :=
    fastLookupInit_lp64 _ _ _
  simp only [fastTreeFunction, treeFunction, hfct]
  rfl

end Build

/-- **The two versions agree** on the longest prefix of the stride that is set, exactly in the
64-bit build and where there is none. -/
theorem treeFunction_agrees_iff (b : Build) (bitmap : b.BITMAP_TYPE) (stride : ℕ)
    (h : stride < 2 ^ b.STRIDE) :
    (b.fastTreeFunction bitmap stride = b.loopTreeFunction bitmap stride ∧
        b.LongestPrefix bitmap b.STRIDE stride (b.fastTreeFunction bitmap stride)) ↔
      b = .lp64 ∨
        ∀ k < b.STRIDE, b.testBitmap bitmap (prefixPos b.STRIDE stride k) = false := by
  have hloop := Build.loopTreeFunction_spec bitmap stride
  have hfast := Build.fastTreeFunction_eq h hloop
  constructor
  · rintro ⟨hagree, -⟩
    cases b with
    | lp64 => exact .inl rfl
    | ilp32 =>
        refine .inr ?_
        rw [hagree] at hfast
        obtain ⟨k, hk, hr, -⟩ | ⟨-, hnone⟩ := hloop
        · have hneg : ((prefixPos Build.ilp32.STRIDE stride k : ℕ) : ℤ) ≠ -1 := by omega
          rw [hr, if_neg hneg] at hfast
          have : (Build.ilp32.width : ℤ) = 32 := rfl
          omega
        · exact hnone
  · intro hcond
    have hagree : b.fastTreeFunction bitmap stride = b.loopTreeFunction bitmap stride := by
      rw [hfast]
      rcases hcond with rfl | hnone
      · have : (Build.lp64.width : ℤ) = 64 := rfl
        split_ifs <;> omega
      · have hr := hloop.unique (.inr ⟨rfl, hnone⟩)
        rw [hr, if_pos rfl]
    exact ⟨hagree, hagree ▸ hloop⟩

/-- In the 32-bit build, the default route of a node is found by the loop and missed by the
table. -/
theorem treeFunction_agrees_iff_ilp32 :
    ¬ (Build.ilp32.fastTreeFunction 1 0 = Build.ilp32.loopTreeFunction 1 0) ∧
      Build.ilp32.fastTreeFunction 1 0 = -32 ∧ Build.ilp32.loopTreeFunction 1 0 = 0 := by
  decide

theorem treeFunction_agrees_iff_lp64 :
    (5 : ℕ) < 2 ^ Build.lp64.STRIDE ∧
      (Build.lp64.fastTreeFunction 1 5 = Build.lp64.loopTreeFunction 1 5 ∧
        Build.lp64.LongestPrefix 1 Build.lp64.STRIDE 5 (Build.lp64.fastTreeFunction 1 5)) :=
  ⟨by decide, (treeFunction_agrees_iff .lp64 1 5 (by decide)).mpr (.inl rfl)⟩

end TreeBitmap
