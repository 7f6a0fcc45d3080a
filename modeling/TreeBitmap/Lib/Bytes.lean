import TreeBitmap.Lib.BitString

/-!
# Bytes and words

The bytes of a word in memory, in either order, and the bits of a block of bytes in the order in
which they are sent: the first byte first, and each byte from its most significant bit on.  A block
is turned around in place by swaps from its ends inwards.

## Main definitions

* `Bytes.bits` — the bits of a block of bytes.
* `Bytes.bigEndian`, `Bytes.littleEndian` — the bytes of a word.
* `Bytes.bits_bigEndian` — the bits of a word are those of its bytes, the most significant first.
* `Bytes.Turned k l l'` — `l'` is `l` after `k` swaps.
-/

namespace Bytes

open BitString

/-! ## Bits -/

/-- The bits of a block of bytes, the first byte first and each one most significant bit first. -/
def bits (bs : List (BitVec 8)) : List Bool := bs.flatMap ofBitVec

@[simp] theorem bits_nil : bits [] = [] := rfl

@[simp] theorem bits_cons (b : BitVec 8) (bs : List (BitVec 8)) :
    bits (b :: bs) = ofBitVec b ++ bits bs := rfl

theorem bits_append (bs cs : List (BitVec 8)) : bits (bs ++ cs) = bits bs ++ bits cs :=
  List.flatMap_append

@[simp] theorem length_bits (bs : List (BitVec 8)) : (bits bs).length = 8 * bs.length := by
  induction bs with
  | nil => rfl
  | cons b bs ih =>
      rw [bits_cons, List.length_append, length_ofBitVec, ih, List.length_cons]
      omega

theorem bits_injective : Function.Injective bits := by
  intro bs cs h
  have hlen : bs.length = cs.length := by
    have := congrArg List.length h
    simp only [length_bits] at this
    omega
  induction bs generalizing cs with
  | nil => exact (List.length_eq_zero_iff.mp hlen.symm).symm
  | cons b bs ih =>
      cases cs with
      | nil => cases hlen
      | cons c cs =>
          rw [bits_cons, bits_cons] at h
          obtain ⟨hb, hbs⟩ := List.append_inj h (by simp)
          rw [ofBitVec_injective hb, ih hbs (by simpa using hlen)]

/-! ## Words -/

variable {n : ℕ}

/-- The bytes of a word, most significant first. -/
def bigEndian (n : ℕ) (x : BitVec (8 * n)) : List (BitVec 8) :=
  (List.range n).map fun i => x.extractLsb' (8 * (n - 1 - i)) 8

/-- The bytes of a word, least significant first. -/
def littleEndian (n : ℕ) (x : BitVec (8 * n)) : List (BitVec 8) :=
  (List.range n).map fun i => x.extractLsb' (8 * i) 8

@[simp] theorem length_bigEndian (x : BitVec (8 * n)) : (bigEndian n x).length = n := by
  simp [bigEndian]

@[simp] theorem length_littleEndian (x : BitVec (8 * n)) : (littleEndian n x).length = n := by
  simp [littleEndian]

theorem reverse_littleEndian (x : BitVec (8 * n)) : (littleEndian n x).reverse = bigEndian n x := by
  apply List.ext_getElem
  · simp
  · intro i h₁ h₂
    rw [List.getElem_reverse]
    simp [littleEndian, bigEndian]

/-- One byte of a word. -/
theorem ofBitVec_extractLsb' (x : BitVec (8 * n)) {i : ℕ} (hi : i < n) :
    ofBitVec (x.extractLsb' (8 * (n - 1 - i)) 8) = ((ofBitVec x).drop (8 * i)).take 8 := by
  apply List.ext_getElem
  · simp only [length_ofBitVec, List.length_take, List.length_drop]
    omega
  · intro j h₁ h₂
    have hj : j < 8 := by simpa using h₁
    rw [List.getElem_take, List.getElem_drop, getElem_ofBitVec, getElem_ofBitVec,
      BitVec.getMsbD_eq_getLsbD, BitVec.getMsbD_eq_getLsbD, BitVec.getLsbD_extractLsb']
    have hin : 8 * i + j < 8 * n := by omega
    have hpos : 8 * (n - 1 - i) + (8 - 1 - j) = 8 * n - 1 - (8 * i + j) := by omega
    rw [hpos, decide_eq_true hj, decide_eq_true hin, decide_eq_true (by omega : 8 - 1 - j < 8)]
    simp

/-- **The bits of a word** are those of its bytes, the most significant first. -/
theorem bits_bigEndian (x : BitVec (8 * n)) : bits (bigEndian n x) = ofBitVec x := by
  have hchunks : ∀ k, k ≤ n → bits ((bigEndian n x).take k) = (ofBitVec x).take (8 * k) := by
    intro k hk
    induction k with
    | zero => simp
    | succ k ih =>
        have hlt : k < (bigEndian n x).length := by
          rw [length_bigEndian]
          omega
        have hbyte : (bigEndian n x)[k] = x.extractLsb' (8 * (n - 1 - k)) 8 := by
          simp [bigEndian]
        rw [List.take_add_one, List.getElem?_eq_getElem hlt, bits_append, ih (by omega), hbyte,
          Option.toList_some, bits_cons, bits_nil, List.append_nil, ofBitVec_extractLsb' x hk,
          Nat.mul_succ, List.take_add]
  have hall := hchunks n (le_refl n)
  rwa [List.take_of_length_le (by simp), List.take_of_length_le (by simp)] at hall

/-! ## Turning a block around -/

section Turned

variable {β : Type*} {l l' : List β} {k : ℕ} {a b : β}

/-- The list `l'` is `l`, with the outermost `k` pairs of entries swapped. -/
structure Turned (k : ℕ) (l l' : List β) : Prop where
  length : l'.length = l.length
  outer : ∀ j, j < l.length → j < k ∨ l.length ≤ j + k → l'[j]? = l[l.length - 1 - j]?
  inner : ∀ j, k ≤ j → j + k < l.length → l'[j]? = l[j]?

theorem turned_zero (l : List β) : Turned 0 l l :=
  ⟨rfl, fun _ _ _ => by omega, fun _ _ _ => rfl⟩

theorem Turned.succ (h : Turned k l l') (hk : 2 * (k + 1) ≤ l.length) (ha : l'[k]? = some a)
    (hb : l'[l.length - k - 1]? = some b) :
    Turned (k + 1) l ((l'.set k b).set (l.length - k - 1) a) := by
  have hlen := h.length
  rw [h.inner k (le_refl k) (by omega)] at ha
  rw [h.inner _ (by omega) (by omega)] at hb
  refine ⟨by simpa using hlen, fun j hj hout => ?_, fun j hkj hjk => ?_⟩
  · by_cases hlast : j = l.length - k - 1
    · subst hlast
      rw [List.getElem?_set_self (by simp; omega), ← ha]
      congr 1
      omega
    · rw [List.getElem?_set_ne (by omega)]
      by_cases hfirst : j = k
      · subst hfirst
        rw [List.getElem?_set_self (by omega), ← hb]
        congr 1
        omega
      · rw [List.getElem?_set_ne (by omega)]
        exact h.outer j hj (by omega)
  · rw [List.getElem?_set_ne (by omega), List.getElem?_set_ne (by omega)]
    exact h.inner j (by omega) (by omega)

/-- **After half of the swaps of a list**, it is turned around. -/
theorem Turned.eq_reverse (h : Turned k l l') (hk : l.length ≤ 2 * k) : l' = l.reverse := by
  apply List.ext_getElem?
  intro j
  by_cases hj : j < l.length
  · rw [h.outer j hj (by omega), List.getElem?_reverse hj]
  · rw [List.getElem?_eq_none (by rw [h.length]; omega), List.getElem?_eq_none (by simp; omega)]

end Turned

end Bytes
