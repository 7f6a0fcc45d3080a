import TreeBitmap.Lib.BitString

/-!
# Addresses (`lib/bitmap_v4.c`, `lib/bitmap_v6.c`)

The IPv4 and the IPv6 engines are the same program over two address types.  What
the program does with an address is little: it reads a few leading bits by a right
shift, and it drops leading bits by a left shift.  `IpAddr` is that interface, with
the laws the tries rely on; its two instances are a 32-bit word and a pair of
64-bit words.

A shift by the width of the word is undefined in C.  The code runs into it and its
comments rely on what x86 does, which is to take the count modulo the width; `shl`
and `shr` do the same.

## Main definitions

* `IpAddr α` — the interface, with its laws.
* `IpV6`, `lshiftIpv6`, `rshiftIpv6` — the two-word addresses and their shifts.
* `IpV6.toBitVec_lshiftIpv6`, `IpV6.toBitVec_rshiftIpv6` — the shifts, as shifts of
  one 128-bit word.
-/

namespace TreeBitmap

open BitString

/-- A left shift on x86: the count is taken modulo the width. -/
def shl {w : ℕ} (x : BitVec w) (n : ℕ) : BitVec w := x <<< (n % w)

/-- A right shift on x86. -/
def shr {w : ℕ} (x : BitVec w) (n : ℕ) : BitVec w := x >>> (n % w)

theorem shl_of_lt {w n : ℕ} (x : BitVec w) (h : n < w) : shl x n = x <<< n := by
  rw [shl, Nat.mod_eq_of_lt h]

theorem shr_of_lt {w n : ℕ} (x : BitVec w) (h : n < w) : shr x n = x >>> n := by
  rw [shr, Nat.mod_eq_of_lt h]

/-- An address type, as the tries use it.  The laws of the shifts cover the counts
that the engines use, with room to spare. -/
class IpAddr (α : Type) where
  /-- The number of bits of an address. -/
  LENGTH : ℕ
  /-- The address `0`. -/
  zero : α
  /-- The low word of `ip >> n`. -/
  rshift : α → ℕ → ℕ
  /-- `ip << n`. -/
  lshift : α → ℕ → α
  /-- The bits, most significant first. -/
  bits : α → List Bool
  /-- The address that starts with these bits and goes on with zeros. -/
  ofBits : List Bool → α
  le_length : 32 ≤ LENGTH
  length_le : LENGTH ≤ 128
  length_bits : ∀ ip, (bits ip).length = LENGTH
  bits_injective : Function.Injective bits
  bits_zero : bits zero = List.replicate LENGTH false
  bits_ofBits : ∀ s, s.length ≤ LENGTH →
    bits (ofBits s) = s ++ List.replicate (LENGTH - s.length) false
  rshift_eq : ∀ ip k, 0 < k → k ≤ 32 → rshift ip (LENGTH - k) = value ((bits ip).take k)
  rshift_zero : ∀ n, rshift zero n = 0
  bits_lshift : ∀ ip n, 0 < n → n < 32 →
    bits (lshift ip n) = (bits ip).drop n ++ List.replicate n false

/-! ## IPv4 -/

/-- `uint32_t ip`. -/
abbrev IpV4 := BitVec 32

/-- The `LENGTH` of `bitmap_v4.h`. -/
def LENGTH : ℕ := 32

instance : IpAddr IpV4 where
  LENGTH := LENGTH
  zero := 0
  rshift := fun ip n => (shr ip n).toNat
  lshift := fun ip n => shl ip n
  bits := ofBitVec
  ofBits := toBitVec 32
  le_length := le_refl _
  length_le := by decide
  length_bits := length_ofBitVec
  bits_injective := ofBitVec_injective
  bits_zero := ofBitVec_zero
  bits_ofBits := fun _ hs => ofBitVec_toBitVec hs
  rshift_eq := by
    intro ip k hpos hk
    have hlt : LENGTH - k < 32 := by
      rw [LENGTH]
      omega
    rw [shr_of_lt ip hlt, value_take_ofBitVec ip hk]
    rfl
  rshift_zero := by
    intro n
    simp [shr]
  bits_lshift := by
    intro ip n _ hn
    rw [shl_of_lt ip hn, ofBitVec_shiftLeft ip hn.le]

/-! ## IPv6 -/

/-- `struct ip_v6`. -/
structure IpV6 where
  iphi : BitVec 64
  iplo : BitVec 64
  deriving DecidableEq, Repr

attribute [ext] IpV6

/-- `lshift_ipv6`. -/
def lshiftIpv6 (ip : IpV6) (bits : ℕ) : IpV6 :=
  if bits < 64 then
    let head := shr ip.iplo (64 - bits)
    { iphi := shl ip.iphi bits ||| head, iplo := shl ip.iplo bits }
  else if 64 < bits then
    let head := shl ip.iplo (bits - 64)
    { iphi := head, iplo := 0 }
  else { iphi := ip.iplo, iplo := 0 }

/-- `rshift_ipv6`. -/
def rshiftIpv6 (ip : IpV6) (bits : ℕ) : IpV6 :=
  if bits < 64 then
    let tail := shl ip.iphi (64 - bits)
    { iphi := shr ip.iphi bits, iplo := shr ip.iplo bits ||| tail }
  else if 64 < bits then
    let tail := shr ip.iphi (bits - 64)
    { iplo := tail, iphi := 0 }
  else { iplo := ip.iphi, iphi := 0 }

/-- The address as one word. -/
def IpV6.toBitVec (ip : IpV6) : BitVec 128 := ip.iphi ++ ip.iplo

theorem IpV6.getLsbD_toBitVec (ip : IpV6) (i : ℕ) :
    ip.toBitVec.getLsbD i = if i < 64 then ip.iplo.getLsbD i else ip.iphi.getLsbD (i - 64) := by
  rw [IpV6.toBitVec, BitVec.getLsbD_append]

theorem IpV6.toBitVec_injective : Function.Injective IpV6.toBitVec := by
  intro x y h
  have hbit : ∀ i, x.toBitVec.getLsbD i = y.toBitVec.getLsbD i := fun i => by rw [h]
  have hlo : x.iplo = y.iplo := by
    apply BitVec.eq_of_getLsbD_eq
    intro i hi
    simpa [IpV6.getLsbD_toBitVec, hi] using hbit i
  have hhi : x.iphi = y.iphi := by
    apply BitVec.eq_of_getLsbD_eq
    intro i hi
    simpa [IpV6.getLsbD_toBitVec] using hbit (i + 64)
  exact IpV6.ext hhi hlo

/-- The two words of a 128-bit word. -/
def IpV6.ofBitVec (x : BitVec 128) : IpV6 := ⟨x.extractLsb' 64 64, x.extractLsb' 0 64⟩

theorem IpV6.toBitVec_ofBitVec (x : BitVec 128) : (IpV6.ofBitVec x).toBitVec = x := by
  apply BitVec.eq_of_getLsbD_eq
  intro i hi
  rw [IpV6.getLsbD_toBitVec, IpV6.ofBitVec]
  by_cases h : i < 64
  · simp [h]
  · have hhi : i - 64 < 64 := by omega
    have he : 64 + (i - 64) = i := by omega
    simp [h, hhi, he]

/-- In its documented range, `lshift_ipv6` shifts the 128-bit word. -/
theorem IpV6.toBitVec_lshiftIpv6 (ip : IpV6) {n : ℕ} (h0 : 0 < n) (hn : n < 128) :
    (lshiftIpv6 ip n).toBitVec = ip.toBitVec <<< n := by
  apply BitVec.eq_of_getLsbD_eq
  intro i hi
  rw [BitVec.getLsbD_shiftLeft, IpV6.getLsbD_toBitVec, IpV6.getLsbD_toBitVec, lshiftIpv6]
  rcases lt_trichotomy n 64 with h | rfl | h
  · rw [if_pos h, shr_of_lt _ (by omega), shl_of_lt _ h, shl_of_lt _ h]
    simp only [BitVec.getLsbD_or, BitVec.getLsbD_shiftLeft, BitVec.getLsbD_ushiftRight]
    by_cases hi64 : i < 64
    · by_cases hin : i < n
      · simp [hi64, hin]
      · have hlow : i - n < 64 := by omega
        simp [hi64, hin, hi, hlow]
    · have hin : ¬ i < n := by omega
      have hhi : i - 64 < 64 := by omega
      by_cases hcarry : i - n < 64
      · -- a bit that was carried from the low word
        have hlow : i - 64 < n := by omega
        have he : 64 - n + (i - 64) = i - n := by omega
        simp [hi64, hcarry, hi, hlow, hin, he]
      · have hlow : ¬ i - 64 < n := by omega
        have hz : ip.iplo.getLsbD (64 - n + (i - 64)) = false :=
          BitVec.getLsbD_of_ge _ _ (by omega)
        have he : i - 64 - n = i - n - 64 := by omega
        simp [hi64, hcarry, hi, hz, he, hlow, hin, hhi]
  · rw [if_neg (lt_irrefl _), if_neg (lt_irrefl _)]
    by_cases hi64 : i < 64
    · simp [hi64]
    · have hhi : i - 64 < 64 := by omega
      simp [hi64, hi, hhi]
  · have hlong : ¬ n < 64 := by omega
    rw [if_neg hlong, if_pos h, shl_of_lt _ (by omega)]
    by_cases hi64 : i < 64
    · have hin : i < n := by omega
      simp [hi64, hin]
    · have hhi : i - 64 < 64 := by omega
      have he : i - 64 - (n - 64) = i - n := by omega
      by_cases hin : i < n
      · have hin' : i - 64 < n - 64 := by omega
        simp [hi64, hin, hin']
      · have hin' : ¬ i - 64 < n - 64 := by omega
        have hlow : i - n < 64 := by omega
        simp [hi64, hin, hi, he, hin', hlow, hhi]

/-- In its documented range, `rshift_ipv6` shifts the 128-bit word. -/
theorem IpV6.toBitVec_rshiftIpv6 (ip : IpV6) {n : ℕ} (h0 : 0 < n) (hn : n < 128) :
    (rshiftIpv6 ip n).toBitVec = ip.toBitVec >>> n := by
  apply BitVec.eq_of_getLsbD_eq
  intro i hi
  rw [BitVec.getLsbD_ushiftRight, IpV6.getLsbD_toBitVec, IpV6.getLsbD_toBitVec, rshiftIpv6]
  rcases lt_trichotomy n 64 with h | rfl | h
  · rw [if_pos h, shl_of_lt _ (by omega), shr_of_lt _ h, shr_of_lt _ h]
    simp only [BitVec.getLsbD_or, BitVec.getLsbD_shiftLeft, BitVec.getLsbD_ushiftRight]
    by_cases hi64 : i < 64
    · by_cases hcarry : n + i < 64
      · have hin : i < 64 - n := by omega
        simp [hi64, hcarry, hin]
      · -- a bit that was carried from the high word
        have hin : ¬ i < 64 - n := by omega
        have he : i - (64 - n) = n + i - 64 := by omega
        have hz : ip.iplo.getLsbD (n + i) = false := BitVec.getLsbD_of_ge _ _ (by omega)
        simp [hi64, hcarry, hz, he, hin]
    · have hhi : ¬ n + i < 64 := by omega
      have he : n + (i - 64) = n + i - 64 := by omega
      simp [hi64, he, hhi]
  · rw [if_neg (lt_irrefl _), if_neg (lt_irrefl _)]
    by_cases hi64 : i < 64
    · simp [hi64]
    · have hz : ip.iphi.getLsbD (64 + i - 64) = false := BitVec.getLsbD_of_ge _ _ (by omega)
      simp [hi64] at hz ⊢
      exact hz
  · have hlong : ¬ n < 64 := by omega
    have hhi : ¬ n + i < 64 := by omega
    rw [if_neg hlong, if_pos h, shr_of_lt _ (by omega)]
    by_cases hi64 : i < 64
    · have he : n - 64 + i = n + i - 64 := by omega
      simp [hi64, he, hhi]
    · have hz : ip.iphi.getLsbD (n + i - 64) = false := BitVec.getLsbD_of_ge _ _ (by omega)
      simp [hi64, hz, hhi]

/-- The low word is what a right shift by 64 or more leaves. -/
theorem IpV6.toNat_iplo (ip : IpV6) : ip.iplo.toNat = ip.toBitVec.toNat % 2 ^ 64 := by
  have hlt := ip.iplo.isLt
  rw [IpV6.toBitVec, BitVec.toNat_append, Nat.shiftLeft_eq, Nat.mul_comm,
    ← Nat.two_pow_add_eq_or_of_lt hlt, Nat.mul_add_mod, Nat.mod_eq_of_lt hlt]

/-- The `LENGTH_v6` of `bitmap_v6.h`. -/
def LENGTH_v6 : ℕ := 128

instance : IpAddr IpV6 where
  LENGTH := LENGTH_v6
  zero := ⟨0, 0⟩
  rshift := fun ip n => (rshiftIpv6 ip n).iplo.toNat
  lshift := lshiftIpv6
  bits := fun ip => ofBitVec ip.toBitVec
  ofBits := fun s => IpV6.ofBitVec (toBitVec 128 s)
  le_length := by decide
  length_le := le_refl _
  length_bits := fun ip => length_ofBitVec _
  bits_injective := fun x y h => IpV6.toBitVec_injective (ofBitVec_injective h)
  bits_zero := ofBitVec_zero
  bits_ofBits := by
    intro s hs
    rw [IpV6.toBitVec_ofBitVec]
    exact ofBitVec_toBitVec hs
  rshift_eq := by
    intro ip k hpos hk
    have hlt := value_lt ((ofBitVec ip.toBitVec).take k)
    rw [List.length_take, length_ofBitVec, min_eq_left (by omega)] at hlt
    have hpow : 2 ^ k ≤ 2 ^ 64 := Nat.pow_le_pow_right (by decide) (by omega)
    rw [IpV6.toNat_iplo, IpV6.toBitVec_rshiftIpv6 ip (by rw [LENGTH_v6]; omega)
      (by rw [LENGTH_v6]; omega)]
    rw [value_take_ofBitVec _ (by omega)] at hlt ⊢
    exact Nat.mod_eq_of_lt (by rw [LENGTH_v6]; omega)
  rshift_zero := by
    intro n
    simp only [rshiftIpv6]
    split_ifs <;> simp [shl, shr]
  bits_lshift := by
    intro ip n h0 hn
    rw [IpV6.toBitVec_lshiftIpv6 ip h0 (by omega), ofBitVec_shiftLeft _ (by omega)]

end TreeBitmap
