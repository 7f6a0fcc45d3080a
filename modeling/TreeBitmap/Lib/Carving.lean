import Mathlib.Data.Set.Insert
import Mathlib.Logic.Function.Basic
import Mathlib.Order.Basic

/-!
# Cutting blocks off areas

An allocator that owns some areas of memory, and cuts each block off the unused part of
one of them, never hands out overlapping blocks.  A block that comes back is not joined to
anything: it stays a block, to be handed out again as it is.  So the blocks that were ever
cut are what has to be looked at, and there the only question is whether the areas
themselves are apart.

## Main definitions

* `Carving.Range`, `Carving.Area` — a block; an area with its mark.
* `Carving.Carved area blocks` — the blocks were cut off the areas.
* `Carved.extend`, `Carved.cut` — a further area, a further block.
-/

namespace Carving

/-- A half-open range of addresses. -/
structure Range where
  start : ℕ
  stop : ℕ
  deriving DecidableEq

/-- The two ranges have no address in common. -/
def Range.Apart (r s : Range) : Prop := r.stop ≤ s.start ∨ s.stop ≤ r.start

theorem Range.Apart.symm {r s : Range} (h : r.Apart s) : s.Apart r := Or.symm h

/-- A range that is not empty is not apart from itself. -/
theorem Range.not_apart_self {r : Range} (hr : r.start < r.stop) : ¬ r.Apart r := by
  intro h
  rcases h with h | h <;> omega

/-- Parts of ranges that are apart are apart. -/
theorem Range.Apart.mono {r s r' s' : Range} (h : r.Apart s) (hr : r.start ≤ r'.start)
    (hr' : r'.stop ≤ r.stop) (hs : s.start ≤ s'.start) (hs' : s'.stop ≤ s.stop) :
    r'.Apart s' := by
  rcases h with h | h
  · exact .inl (by omega)
  · exact .inr (by omega)

/-- An area, of which the part below the mark has been cut. -/
structure Area where
  start : ℕ
  mark : ℕ
  stop : ℕ

/-- The whole area. -/
def Area.range (a : Area) : Range := ⟨a.start, a.stop⟩

variable {ι : Type*} {area : ι → Option Area} {blocks : Set (ι × Range)}

/-- The blocks were cut off the areas, each given with the area it is in. -/
structure Carved (area : ι → Option Area) (blocks : Set (ι × Range)) : Prop where
  start_le : ∀ i a, area i = some a → a.start ≤ a.mark
  mark_le : ∀ i a, area i = some a → a.mark ≤ a.stop
  areas : ∀ i j a b, area i = some a → area j = some b → i ≠ j → a.range.Apart b.range
  nonempty : ∀ b ∈ blocks, b.2.start < b.2.stop
  within : ∀ b ∈ blocks, ∃ a, area b.1 = some a ∧ a.start ≤ b.2.start ∧ b.2.stop ≤ a.mark
  apart : ∀ b ∈ blocks, ∀ c ∈ blocks, b ≠ c → b.2.Apart c.2

theorem carved_empty {area : ι → Option Area} (hstart : ∀ i a, area i = some a → a.start ≤ a.mark)
    (hmark : ∀ i a, area i = some a → a.mark ≤ a.stop)
    (hareas : ∀ i j a b, area i = some a → area j = some b → i ≠ j → a.range.Apart b.range) :
    Carved area ∅ where
  start_le := hstart
  mark_le := hmark
  areas := hareas
  nonempty := fun _ hb => absurd hb (Set.notMem_empty _)
  within := fun _ hb => absurd hb (Set.notMem_empty _)
  apart := fun _ hb => absurd hb (Set.notMem_empty _)

/-- A range is a block of one area only. -/
theorem Carved.eq_of_range_eq (h : Carved area blocks) {b c : ι × Range} (hb : b ∈ blocks)
    (hc : c ∈ blocks) (heq : b.2 = c.2) : b = c := by
  by_contra hne
  have hapart := h.apart b hb c hc hne
  rw [heq] at hapart
  exact Range.not_apart_self (h.nonempty c hc) hapart

/-- **Further areas** may be added if all areas are apart. -/
theorem Carved.extend {area' : ι → Option Area} (h : Carved area blocks) (h' : Carved area' ∅)
    (hle : ∀ i a, area i = some a → area' i = some a) : Carved area' blocks where
  start_le := h'.start_le
  mark_le := h'.mark_le
  areas := h'.areas
  nonempty := h.nonempty
  within := by
    intro b hb
    obtain ⟨a, ha, hin⟩ := h.within b hb
    exact ⟨a, hle b.1 a ha, hin⟩
  apart := h.apart

section Updates

variable [DecidableEq ι] {i : ι} {a : Area}

theorem of_update_eq_some {j : ι} {b : Area} (h : Function.update area i (some a) j = some b) :
    j = i ∧ b = a ∨ j ≠ i ∧ area j = some b := by
  by_cases hji : j = i
  · rw [hji, Function.update_self] at h
    exact .inl ⟨hji, (Option.some.inj h).symm⟩
  · rw [Function.update_of_ne hji] at h
    exact .inr ⟨hji, h⟩

/-- The block that is cut next. -/
def Area.next (a : Area) (len : ℕ) : Range := ⟨a.mark, a.mark + len⟩

/-- The area after the cut. -/
def Area.cut (a : Area) (len : ℕ) : Area := { a with mark := a.mark + len }

/-- An old block is below the mark of its area; the next block is above that of its own. -/
theorem Carved.apart_next (h : Carved area blocks) (hi : area i = some a) {len : ℕ}
    (hfits : a.mark + len ≤ a.stop) {b : ι × Range} (hb : b ∈ blocks) :
    b.2.Apart (a.next len) := by
  obtain ⟨c, hc, hlow, hhigh⟩ := h.within b hb
  by_cases hbi : b.1 = i
  · rw [hbi, hi] at hc
    cases hc
    exact .inl hhigh
  · refine (h.areas b.1 i c a hc hi hbi).mono hlow ?_ (h.start_le i a hi) hfits
    exact hhigh.trans (h.mark_le b.1 c hc)

/-- The next block is a new one. -/
theorem Carved.ne_next (h : Carved area blocks) (hi : area i = some a) {len : ℕ}
    (hfits : a.mark + len ≤ a.stop) {b : ι × Range} (hb : b ∈ blocks) : b.2 ≠ a.next len := by
  intro heq
  have hapart := h.apart_next hi hfits hb
  rw [← heq] at hapart
  exact Range.not_apart_self (h.nonempty b hb) hapart

/-- **A further block** may be cut if it fits. -/
theorem Carved.cut (h : Carved area blocks) (hi : area i = some a) {len : ℕ} (hlen : 0 < len)
    (hfits : a.mark + len ≤ a.stop) :
    Carved (Function.update area i (some (a.cut len))) (insert (i, a.next len) blocks) := by
  refine ⟨fun j b hj => ?_, fun j b hj => ?_, fun j k b c hj hk hjk => ?_, fun b hb => ?_,
    fun b hb => ?_, fun b hb c hc hbc => ?_⟩
  · rcases of_update_eq_some hj with ⟨-, rfl⟩ | ⟨-, hj'⟩
    · exact (h.start_le i a hi).trans (Nat.le_add_right _ _)
    · exact h.start_le j b hj'
  · rcases of_update_eq_some hj with ⟨-, rfl⟩ | ⟨-, hj'⟩
    · exact hfits
    · exact h.mark_le j b hj'
  · rcases of_update_eq_some hj with ⟨rfl, rfl⟩ | ⟨-, hj'⟩ <;>
      rcases of_update_eq_some hk with ⟨rfl, rfl⟩ | ⟨-, hk'⟩
    · exact absurd rfl hjk
    · exact h.areas j k a c hi hk' hjk
    · exact h.areas j k b a hj' hi hjk
    · exact h.areas j k b c hj' hk' hjk
  · rcases Set.mem_insert_iff.mp hb with rfl | hb
    · exact Nat.lt_add_of_pos_right hlen
    · exact h.nonempty b hb
  · rcases Set.mem_insert_iff.mp hb with rfl | hb
    · exact ⟨a.cut len, Function.update_self _ _ _, h.start_le i a hi, le_refl _⟩
    · obtain ⟨c, hc, hlow, hhigh⟩ := h.within b hb
      by_cases hbi : b.1 = i
      · rw [hbi, hi] at hc
        cases hc
        refine ⟨a.cut len, by rw [hbi, Function.update_self], hlow, ?_⟩
        exact hhigh.trans (Nat.le_add_right _ _)
      · exact ⟨c, by rw [Function.update_of_ne hbi, hc], hlow, hhigh⟩
  · rcases Set.mem_insert_iff.mp hb with rfl | hb <;> rcases Set.mem_insert_iff.mp hc with rfl | hc
    · exact absurd rfl hbc
    · exact (h.apart_next hi hfits hc).symm
    · exact h.apart_next hi hfits hb
    · exact h.apart b hb c hc hbc

end Updates

end Carving
