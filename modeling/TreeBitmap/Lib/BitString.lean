import Mathlib.Data.List.Induction
import Mathlib.Data.List.TakeDrop
import Mathlib.Tactic.Linarith
import Mathlib.Tactic.Positivity
import Mathlib.Tactic.Ring

/-!
# Bit strings, most significant bit first

A key of a binary trie is a list of bits read from the top of a machine word.
This module relates such lists to the words they are read from: the number a
list spells, the list a `BitVec` spells, and what the two machine shifts do to
that list.

## Main definitions

* `BitString.value l` — the number spelled by `l`.
* `BitString.ofBitVec x` — the bits of `x`.
* `BitString.toBitVec w l` — `l` followed by zeros, as a word of `w` bits.
* `BitString.value_take_ofBitVec` — a right shift reads off the leading bits.
* `BitString.ofBitVec_shiftLeft` — a left shift drops them.
* `BitString.toBitVec_append` — an or with a shifted word adds bits.
-/

namespace BitString

/-- The number spelled by a list of bits. -/
def value (l : List Bool) : ℕ := l.foldl (fun acc b => 2 * acc + b.toNat) 0

@[simp] theorem value_nil : value [] = 0 := rfl

theorem value_concat (l : List Bool) (b : Bool) :
    value (l ++ [b]) = 2 * value l + b.toNat := by
  simp [value]

theorem value_append (l r : List Bool) :
    value (l ++ r) = value l * 2 ^ r.length + value r := by
  induction r using List.reverseRecOn with
  | nil => simp
  | append_singleton r b ih =>
      rw [← List.append_assoc, value_concat, value_concat, ih, List.length_append, pow_add]
      simp only [List.length_singleton, pow_one]
      ring

theorem value_cons (b : Bool) (l : List Bool) :
    value (b :: l) = b.toNat * 2 ^ l.length + value l := by
  simpa [value] using value_append [b] l

theorem value_lt (l : List Bool) : value l < 2 ^ l.length := by
  induction l with
  | nil => simp
  | cons b l ih =>
      have hb : b.toNat ≤ 1 := Bool.toNat_le b
      have hmul : b.toNat * 2 ^ l.length ≤ 1 * 2 ^ l.length := Nat.mul_le_mul_right _ hb
      rw [value_cons, List.length_cons, pow_succ]
      omega

@[simp] theorem value_replicate_false (n : ℕ) : value (List.replicate n false) = 0 := by
  induction n with
  | zero => rfl
  | succ n ih => rw [List.replicate_succ, value_cons, ih]; simp

/-- Among lists of one length, the number determines the list. -/
theorem value_injective {l r : List Bool} (hlen : l.length = r.length)
    (h : value l = value r) : l = r := by
  induction l generalizing r with
  | nil => exact (List.length_eq_zero_iff.mp hlen.symm).symm
  | cons b l ih =>
      cases r with
      | nil => simp at hlen
      | cons c r =>
          have hlen' : l.length = r.length := by simpa using hlen
          rw [value_cons, value_cons, hlen'] at h
          have hl := value_lt l
          have hr := value_lt r
          rw [hlen'] at hl
          have hbc : b = c := by
            cases b <;> cases c <;> simp at h ⊢ <;> omega
          subst hbc
          rw [ih hlen' (by omega)]

section Words

variable {w : ℕ}

/-- The bits of a word. -/
def ofBitVec (x : BitVec w) : List Bool := (List.range w).map x.getMsbD

@[simp] theorem length_ofBitVec (x : BitVec w) : (ofBitVec x).length = w := by
  simp [ofBitVec]

theorem getElem_ofBitVec (x : BitVec w) (i : ℕ) (h : i < (ofBitVec x).length) :
    (ofBitVec x)[i] = x.getMsbD i := by
  simp [ofBitVec]

@[simp] theorem ofBitVec_zero : ofBitVec (0#w) = List.replicate w false := by
  apply List.ext_getElem
  · simp
  · intro i h₁ h₂
    simp [getElem_ofBitVec]

theorem take_succ_ofBitVec (x : BitVec w) {k : ℕ} (hk : k < w) :
    (ofBitVec x).take (k + 1) = (ofBitVec x).take k ++ [x.getMsbD k] := by
  rw [List.take_add_one, List.getElem?_eq_getElem (by simpa using hk), getElem_ofBitVec]
  rfl

/-- **A right shift reads off the leading bits.** -/
theorem value_take_ofBitVec (x : BitVec w) {k : ℕ} (hk : k ≤ w) :
    value ((ofBitVec x).take k) = (x >>> (w - k)).toNat := by
  induction k with
  | zero => simp [Nat.shiftRight_eq_div_pow, Nat.div_eq_of_lt x.isLt]
  | succ k ih =>
      have hsplit : w - k = (w - (k + 1)) + 1 := by omega
      rw [take_succ_ofBitVec x (by omega), value_concat, ih (by omega),
        BitVec.getMsbD_eq_getLsbD, hsplit]
      simp only [BitVec.toNat_ushiftRight, Nat.shiftRight_add]
      have hbit : x.getLsbD (w - 1 - k) = (x.toNat >>> (w - (k + 1))).testBit 0 := by
        rw [BitVec.getLsbD, Nat.testBit_shiftRight]
        congr 1
        omega
      rw [hbit, decide_eq_true (by omega : k < w), Bool.true_and, Nat.shiftRight_one,
        Nat.testBit_zero]
      generalize x.toNat >>> (w - (k + 1)) = y
      rcases Nat.mod_two_eq_zero_or_one y with h | h <;> simp [h] <;> omega

theorem value_ofBitVec (x : BitVec w) : value (ofBitVec x) = x.toNat := by
  have h := value_take_ofBitVec x (le_refl w)
  rwa [List.take_of_length_le (by simp), Nat.sub_self, BitVec.ushiftRight_zero] at h

theorem ofBitVec_injective : Function.Injective (ofBitVec (w := w)) := by
  intro x y h
  apply BitVec.eq_of_toNat_eq
  rw [← value_ofBitVec x, ← value_ofBitVec y, h]

/-- **A left shift drops the leading bits** and appends zeros. -/
theorem ofBitVec_shiftLeft (x : BitVec w) {n : ℕ} (hn : n ≤ w) :
    ofBitVec (x <<< n) = (ofBitVec x).drop n ++ List.replicate n false := by
  apply List.ext_getElem
  · simp; omega
  · intro i h₁ h₂
    rw [getElem_ofBitVec, BitVec.getMsbD_shiftLeft]
    by_cases hi : i < w - n
    · rw [List.getElem_append_left (by simpa using hi), List.getElem_drop, getElem_ofBitVec]
      rw [Nat.add_comm]
    · rw [List.getElem_append_right (by simpa using hi), List.getElem_replicate]
      exact BitVec.getMsbD_of_ge _ _ (by omega)

/-- **A right shift prepends zeros** and drops the last bits. -/
theorem ofBitVec_ushiftRight (x : BitVec w) {n : ℕ} (hn : n ≤ w) :
    ofBitVec (x >>> n) = List.replicate n false ++ (ofBitVec x).take (w - n) := by
  apply value_injective
  · simp; omega
  · rw [value_ofBitVec, value_append, value_replicate_false, zero_mul, zero_add,
      value_take_ofBitVec x (Nat.sub_le w n), Nat.sub_sub_self hn]

/-- The word whose leading bits are `l` and whose other bits are zero. -/
def toBitVec (w : ℕ) (l : List Bool) : BitVec w := BitVec.ofNat w (value l * 2 ^ (w - l.length))

theorem toNat_toBitVec {l : List Bool} (hl : l.length ≤ w) :
    (toBitVec w l).toNat = value l * 2 ^ (w - l.length) := by
  have hlt : value l * 2 ^ (w - l.length) < 2 ^ w := by
    calc value l * 2 ^ (w - l.length)
        < 2 ^ l.length * 2 ^ (w - l.length) :=
          Nat.mul_lt_mul_of_pos_right (value_lt l) (by positivity)
      _ = 2 ^ w := by rw [← pow_add]; congr 1; omega
  rw [toBitVec, BitVec.toNat_ofNat, Nat.mod_eq_of_lt hlt]

theorem ofBitVec_toBitVec {l : List Bool} (hl : l.length ≤ w) :
    ofBitVec (toBitVec w l) = l ++ List.replicate (w - l.length) false := by
  apply value_injective
  · simp; omega
  · rw [value_ofBitVec, value_append, toNat_toBitVec hl]
    simp

/-- **Further bits are or-ed in** below the leading ones. -/
theorem toBitVec_append {q t : List Bool} (h : q.length + t.length ≤ w) :
    toBitVec w q ||| BitVec.ofNat w (value t) <<< (w - q.length - t.length) =
      toBitVec w (q ++ t) := by
  have hlen : (q ++ t).length = q.length + t.length := List.length_append
  obtain ⟨n, rfl⟩ : ∃ n, w = q.length + t.length + n := ⟨w - (q.length + t.length), by omega⟩
  have hn : q.length + t.length + n - q.length - t.length = n := by omega
  have hq : q.length + t.length + n - q.length = t.length + n := by omega
  have hqt : q.length + t.length + n - (q.length + t.length) = n := by omega
  have hlow : value t * 2 ^ n < 2 ^ (t.length + n) := by
    rw [pow_add]
    exact Nat.mul_lt_mul_of_pos_right (value_lt t) (by positivity)
  have hword : 2 ^ (t.length + n) ≤ 2 ^ (q.length + t.length + n) :=
    Nat.pow_le_pow_right (by decide) (by omega)
  have ht : (BitVec.ofNat (q.length + t.length + n) (value t) <<< n).toNat = value t * 2 ^ n := by
    have hle : value t ≤ value t * 2 ^ n := Nat.le_mul_of_pos_right _ (by positivity)
    have hmod : value t % 2 ^ (q.length + t.length + n) = value t := Nat.mod_eq_of_lt (by omega)
    rw [BitVec.toNat_shiftLeft, BitVec.toNat_ofNat, hmod, Nat.shiftLeft_eq,
      Nat.mod_eq_of_lt (by omega)]
  apply BitVec.eq_of_toNat_eq
  rw [BitVec.toNat_or, hn, ht, toNat_toBitVec (by omega), toNat_toBitVec (by omega), hlen, hq, hqt,
    Nat.mul_comm (value q), ← Nat.two_pow_add_eq_or_of_lt hlow, value_append, pow_add]
  ring

/-- Every number below `2 ^ k` is spelled by `k` bits. -/
theorem exists_value_eq {v k : ℕ} (hv : v < 2 ^ k) :
    ∃ l : List Bool, l.length = k ∧ value l = v := by
  refine ⟨ofBitVec (BitVec.ofNat k v), by simp, ?_⟩
  rw [value_ofBitVec, BitVec.toNat_ofNat, Nat.mod_eq_of_lt hv]

end Words

end BitString
