import TreeBitmap.Bitmap

/-!
# Two words as one number

The IPv6 engine has no 128-bit type.  It shifts a pair of 64-bit words by hand, with one
case for counts below 64, one for counts above, and one for 64 itself.  Read as a number,
the pair is multiplied and divided as the caller means it to be.

All that the engine does with these shifts is to read a few bits at some multiple of
`STRIDE`: it drops whole strides on the left, and then all but the first bits on the right.

## Main definitions

* `IpV6.toNat` — the address as a number.
* `lshiftStrides` — the address after some strides.
* `shifts_ipv6` — **the shifts are 128-bit shifts**, and read off the bits they should.
-/

namespace TreeBitmap

/-- The address as a number. -/
def IpV6.toNat (ip : IpV6) : ℕ := ip.iphi.toNat * 2 ^ 64 + ip.iplo.toNat

theorem IpV6.toNat_toBitVec (ip : IpV6) : ip.toBitVec.toNat = ip.toNat := by
  have hlt := ip.iplo.isLt
  rw [IpV6.toBitVec, BitVec.toNat_append, Nat.shiftLeft_eq, Nat.mul_comm,
    ← Nat.two_pow_add_eq_or_of_lt hlt, Nat.mul_comm, IpV6.toNat]

/-- The two words of a small number. -/
theorem IpV6.words_of_lt {ip : IpV6} (h : ip.toNat < 2 ^ 64) :
    ip.iphi = 0 ∧ ip.iplo.toNat = ip.toNat := by
  have hhi : ip.iphi.toNat = 0 := by
    rw [IpV6.toNat] at h
    omega
  refine ⟨BitVec.eq_of_toNat_eq hhi, ?_⟩
  rw [IpV6.toNat, hhi]
  omega

theorem toNat_lshiftIpv6 (ip : IpV6) {bits : ℕ} (h0 : 1 ≤ bits) (h : bits ≤ 127) :
    (lshiftIpv6 ip bits).toNat = ip.toNat * 2 ^ bits % 2 ^ 128 := by
  rw [← IpV6.toNat_toBitVec, IpV6.toBitVec_lshiftIpv6 ip h0 (by omega), BitVec.toNat_shiftLeft,
    Nat.shiftLeft_eq, IpV6.toNat_toBitVec]

theorem toNat_rshiftIpv6 (ip : IpV6) {bits : ℕ} (h0 : 1 ≤ bits) (h : bits ≤ 127) :
    (rshiftIpv6 ip bits).toNat = ip.toNat / 2 ^ bits := by
  rw [← IpV6.toNat_toBitVec, IpV6.toBitVec_rshiftIpv6 ip h0 (by omega), BitVec.toNat_ushiftRight,
    Nat.shiftRight_eq_div_pow, IpV6.toNat_toBitVec]

/-- The address after `k` rounds of a loop of `bitmap_v6.c`. -/
def lshiftStrides (k : ℕ) (ip : IpV6) : IpV6 := (fun ip => lshiftIpv6 ip STRIDE)^[k] ip

theorem toBitVec_lshiftStrides (k : ℕ) (ip : IpV6) :
    (lshiftStrides k ip).toBitVec = ip.toBitVec <<< (STRIDE * k) := by
  induction k with
  | zero => simp [lshiftStrides]
  | succ k ih =>
      have hstep : lshiftStrides (k + 1) ip = lshiftIpv6 (lshiftStrides k ip) STRIDE :=
        Function.iterate_succ_apply' _ _ _
      rw [hstep, IpV6.toBitVec_lshiftIpv6 _ (by decide) (by decide), ih, Nat.mul_succ,
        BitVec.shiftLeft_add]

theorem toBitVec_window (ip : IpV6) (k : ℕ) {w : ℕ} (h0 : 1 ≤ w) (hw : w ≤ STRIDE) :
    (rshiftIpv6 (lshiftStrides k ip) (LENGTH_v6 - w)).toBitVec =
      ip.toBitVec <<< (STRIDE * k) >>> (128 - w) := by
  rw [STRIDE_eq] at hw
  rw [LENGTH_v6, IpV6.toBitVec_rshiftIpv6 _ (by omega) (by omega), toBitVec_lshiftStrides]

/-- The number that some shifts to the left and one to the right leave. -/
theorem toNat_window (ip : IpV6) (k : ℕ) {w : ℕ} (h0 : 1 ≤ w) (hw : w ≤ STRIDE) :
    (rshiftIpv6 (lshiftStrides k ip) (LENGTH_v6 - w)).toNat =
      ip.toNat * 2 ^ (STRIDE * k) % 2 ^ 128 / 2 ^ (128 - w) := by
  rw [← IpV6.toNat_toBitVec, toBitVec_window ip k h0 hw, BitVec.toNat_ushiftRight,
    BitVec.toNat_shiftLeft, Nat.shiftLeft_eq, Nat.shiftRight_eq_div_pow, IpV6.toNat_toBitVec]

theorem window_lt (ip : IpV6) (k : ℕ) {w : ℕ} (h0 : 1 ≤ w) (hw : w ≤ STRIDE) :
    (rshiftIpv6 (lshiftStrides k ip) (LENGTH_v6 - w)).toNat < 2 ^ w := by
  rw [toNat_window ip k h0 hw]
  apply Nat.div_lt_of_lt_mul
  rw [← pow_add, Nat.sub_add_cancel (by rw [STRIDE_eq] at hw; omega)]
  exact Nat.mod_lt _ (by positivity)

/-- What is left fits into the low word, which is where the engine reads it. -/
theorem words_window (ip : IpV6) (k : ℕ) {w : ℕ} (h0 : 1 ≤ w) (hw : w ≤ STRIDE) :
    (rshiftIpv6 (lshiftStrides k ip) (LENGTH_v6 - w)).iphi = 0 ∧
      (rshiftIpv6 (lshiftStrides k ip) (LENGTH_v6 - w)).iplo.toNat =
        (rshiftIpv6 (lshiftStrides k ip) (LENGTH_v6 - w)).toNat := by
  have hpow : 2 ^ w ≤ 2 ^ 64 := Nat.pow_le_pow_right (by decide) (by rw [STRIDE_eq] at hw; omega)
  exact IpV6.words_of_lt ((window_lt ip k h0 hw).trans_le hpow)

/-- Bit by bit.  Past the end of the address there are zeros. -/
theorem getLsbD_window (ip : IpV6) (k : ℕ) {w : ℕ} (h0 : 1 ≤ w) (hw : w ≤ STRIDE) (i : ℕ) :
    (rshiftIpv6 (lshiftStrides k ip) (LENGTH_v6 - w)).iplo.getLsbD i =
      (decide (i < w) && ip.toBitVec.getMsbD (STRIDE * k + (w - 1 - i))) := by
  have hw' : w ≤ 6 := hw
  by_cases hi : i < w
  · have hbit := IpV6.getLsbD_toBitVec (rshiftIpv6 (lshiftStrides k ip) (LENGTH_v6 - w)) i
    rw [if_pos (by omega), toBitVec_window ip k h0 hw] at hbit
    rw [← hbit, BitVec.getLsbD_ushiftRight, BitVec.getLsbD_shiftLeft, BitVec.getMsbD_eq_getLsbD,
      decide_eq_true hi, Bool.true_and, decide_eq_true (by omega : 128 - w + i < 128),
      Bool.true_and]
    by_cases hin : STRIDE * k + (w - 1 - i) < 128
    · have hle : ¬ 128 - w + i < STRIDE * k := by omega
      have heq : 128 - w + i - STRIDE * k = 128 - 1 - (STRIDE * k + (w - 1 - i)) := by omega
      rw [decide_eq_true hin, decide_eq_false hle, heq]
      rfl
    · have hlt : 128 - w + i < STRIDE * k := by omega
      rw [decide_eq_false hin, decide_eq_true hlt]
      rfl
  · have hlt := window_lt ip k h0 hw
    rw [← (words_window ip k h0 hw).2] at hlt
    rw [decide_eq_false hi, Bool.false_and, BitVec.getLsbD]
    exact Nat.testBit_lt_two_pow (hlt.trans_le (Nat.pow_le_pow_right (by decide) (not_lt.mp hi)))

theorem mul_mod_div_eq {v a w n : ℕ} (h : a + w ≤ n) :
    v * 2 ^ a % 2 ^ n / 2 ^ (n - w) = v / 2 ^ (n - (a + w)) % 2 ^ w := by
  obtain ⟨d, rfl⟩ : ∃ d, n = a + w + d := ⟨n - (a + w), by omega⟩
  have hn : a + w + d - (a + w) = d := by omega
  have hw : a + w + d - w = a + d := by omega
  have hpow : 2 ^ (a + w + d) = 2 ^ a * (2 ^ d * 2 ^ w) := by
    rw [← pow_add, ← pow_add]
    congr 1
    omega
  rw [hn, hw, hpow, Nat.mul_comm v, Nat.mul_mod_mul_left, pow_add, ← Nat.div_div_eq_div_mul,
    Nat.mul_div_cancel_left _ (by positivity), Nat.mod_mul_right_div_self]

/-- **The two-word shifts are 128-bit shifts.**  After some strides, a right shift leaves the
address bits that come next, wherever the words meet. -/
theorem shifts_ipv6 (ip : IpV6) :
    (∀ bits, 1 ≤ bits → bits ≤ 127 →
      (lshiftIpv6 ip bits).toNat = ip.toNat * 2 ^ bits % 2 ^ 128 ∧
      (rshiftIpv6 ip bits).toNat = ip.toNat / 2 ^ bits) ∧
    (∀ k w, 1 ≤ w → w ≤ STRIDE →
      (rshiftIpv6 (lshiftStrides k ip) (LENGTH_v6 - w)).iphi = 0 ∧
      ∀ i, (rshiftIpv6 (lshiftStrides k ip) (LENGTH_v6 - w)).iplo.getLsbD i =
        (decide (i < w) && ip.toBitVec.getMsbD (STRIDE * k + (w - 1 - i)))) ∧
    (∀ cidr, 1 ≤ cidr → cidr ≤ LENGTH_v6 → ∀ k w, 1 ≤ w → w ≤ STRIDE → STRIDE * k + w ≤ cidr →
      (rshiftIpv6 (lshiftStrides k ip) (LENGTH_v6 - w)).iplo.toNat =
        ip.toNat / 2 ^ (LENGTH_v6 - (STRIDE * k + w)) % 2 ^ w) := by
  refine ⟨fun bits h0 h => ⟨toNat_lshiftIpv6 ip h0 h, toNat_rshiftIpv6 ip h0 h⟩,
    fun k w h0 hw => ⟨(words_window ip k h0 hw).1, getLsbD_window ip k h0 hw⟩,
    fun cidr _ hcidr k w h0 hw hle => ?_⟩
  rw [(words_window ip k h0 hw).2, toNat_window ip k h0 hw]
  exact mul_mod_div_eq (hle.trans hcidr)

/-- The eleventh stride of an address lies across the two words. -/
theorem shifts_ipv6_straddle :
    (rshiftIpv6 (lshiftStrides 10 ⟨0x20010db80000000b#64, 0xc000000000000001#64⟩)
      (LENGTH_v6 - 6)).iplo.toNat =
        (IpV6.mk 0x20010db80000000b#64 0xc000000000000001#64).toNat /
          2 ^ (LENGTH_v6 - (STRIDE * 10 + 6)) % 2 ^ 6 :=
  (shifts_ipv6 ⟨0x20010db80000000b#64, 0xc000000000000001#64⟩).2.2 66 (by decide) (by decide) 10 6
    (by decide) (by decide) (by decide)

end TreeBitmap
