import TreeBitmap.Search
import TreeBitmap.Tbm

/-!
# Overlap

`bitmap_detect_overlap_generic` goes down a trie along a prefix and remembers the last
shorter one it has seen.  A node contributes the longest of its strings that is below
the limit, and the loop puts the strides together as `longest_append` does.

## Main definitions

* `detectOverlapLoop_spec` — the loop, from any node on.
* `detectOverlapGeneric_eq` — **the nearest shorter prefix**, other than the empty one.
* `traverseBranch_overlapNhi` — a next hop is exchanged at the empty prefix.
-/

namespace TreeBitmap

open BitString LongestMatch Ranked IpAddr

variable {α : Type} [IpAddr α] {w : ℕ} {n : MbNode}

/-- What the loop has found, when `m` is the longest match from this node on: the mask
and a pointer to the next hop, or what had been found before. -/
def Found (step : ℕ) (before after : ℕ × Option NhiPtr) (m : Option (List Bool × Nhi)) : Prop :=
  match m with
  | none => after = before
  | some (u, v) => after.1 = 6 * step + u.length ∧ ∃ p, after.2 = some p ∧ p.deref = some v

/-- A match further down replaces the match of this node. -/
theorem Found.append {step : ℕ} {a b c : ℕ × Option NhiPtr} {t : List Bool} (ht : t.length = 6)
    {m m' : Option (List Bool × Nhi)} (h : Found step a b m) (h' : Found (step + 1) b c m') :
    Found step a c ((m'.map fun x => (t ++ x.1, x.2)).or m) := by
  cases m' with
  | none =>
      obtain rfl : c = b := h'
      exact h
  | some x =>
      obtain ⟨hmask, hp⟩ := h'
      refine ⟨?_, hp⟩
      rw [hmask, List.length_append, ht]
      omega

/-- One round of the loop, at one node. -/
theorem findOverlap_spec (hn : n.Layout) {t : List Bool} (ht : t.length = 6) {limit step : ℕ}
    (hpos : 0 < limit) (hbound : 6 * step + limit ≤ 128) (mask finalMask : ℕ)
    (lg : Option NhiPtr) :
    ∃ pos mask' after,
      findOverlapInNode n.internal (value t) mask (if STRIDE < limit then STRIDE else limit) =
        (pos, mask') ∧
      (if pos ≠ -1 ∧ u8 (step * STRIDE + mask') < 6 * step + limit then
        (u8 (step * STRIDE + mask'), some (pointerToNhi n pos.toNat)) else (finalMask, lg)) =
        after ∧
      Found step (finalMask, lg) after (longest n.get (t.take (min limit 6 - 1))) := by
  have hlimit : (if STRIDE < limit then STRIDE else limit) = min limit 6 := by
    rw [STRIDE_eq]
    split_ifs <;> omega
  obtain ⟨mask₀, hfind⟩ := findOverlapInNode_eq (marks_internal hn.rules_length) ht mask
    (lt_min hpos (by decide)) (min_le_right limit 6)
  rw [hlimit, hfind]
  rcases hl : longest n.get (t.take (min limit 6 - 1)) with _ | ⟨u, v⟩
  · exact ⟨-1, mask₀, _, rfl, rfl, by simp [Found]⟩
  · obtain ⟨hu, hv, -⟩ := longest_eq_some_iff.mp hl
    have hlen := hu.length_le
    rw [List.length_take, ht] at hlen
    have hmem : inlPos u ∈ members n.internal :=
      (marks_internal hn.rules_length u (by omega)).mpr (by rw [hv]; simp)
    have hmask : u8 (step * STRIDE + u.length) = 6 * step + u.length := by
      rw [u8, STRIDE_eq, Nat.mod_eq_of_lt (by omega)]
      omega
    refine ⟨inlPos u, u.length, _, rfl, rfl, ?_⟩
    rw [hmask, if_pos ⟨by simp, by omega⟩]
    refine ⟨rfl, _, rfl, ?_⟩
    change (pointerToNhi n (inlPos u)).deref = some v
    rw [deref_pointerToNhi hmem, ← MbNode.get_of_lt (by omega), hv]

/-- Beyond the first stride, a match goes on below it. -/
theorem longest_take_of_lt (T : Table Bool Nhi) {s : List Bool} {limit : ℕ} (hlimit : 6 < limit)
    (hs : limit ≤ s.length) :
    longest T (s.take (limit - 1)) =
      ((longest (below T (s.take 6)) ((s.drop 6).take (limit - 6 - 1))).map
        fun x => (s.take 6 ++ x.1, x.2)).or (longest T (s.take 5)) := by
  have hne : s.take 6 ≠ [] := by
    apply List.ne_nil_of_length_pos
    rw [List.length_take]
    omega
  have htake : s.take 6 ++ (s.drop 6).take (limit - 6 - 1) = s.take (limit - 1) := by
    rw [← List.take_add]
    congr 1
    omega
  have hdrop : (s.take 6).dropLast = s.take 5 := by
    rw [List.dropLast_eq_take, List.length_take, List.take_take]
    congr 1
    omega
  rw [← htake, longest_append _ hne, hdrop]

/-- **The loop of `bitmap_detect_overlap_generic`** finds the longest match that is
shorter than the limit. -/
theorem detectOverlapLoop_spec (hn : n.Wf w) {ip : α} {s : List Bool} (hip : Spells ip s)
    {limit : ℕ} (hpos : 0 < limit) (hs : limit ≤ s.length) (step : ℕ)
    (hbound : 6 * step + limit ≤ 128) (mask finalMask : ℕ) (lg : Option NhiPtr) :
    ∃ r, detectOverlapLoop (6 * step + limit) n ip limit step mask finalMask lg = some r ∧
      Found step (finalMask, lg) r (longest n.get (s.take (limit - 1))) := by
  induction limit using Nat.strong_induction_on generalizing n w ip s step mask finalMask lg with
  | _ limit ih =>
      have hlen := le_length (α := α)
      set t := (bits ip).take 6 with htdef
      have ht : t.length = 6 := by
        rw [htdef, List.length_take, IpAddr.length_bits]
        omega
      have hts : ∀ k ≤ min limit 6, t.take k = s.take k := by
        intro k hk
        rw [htdef, List.take_take, min_eq_left (by omega), hip,
          List.take_append_of_le_length (by omega)]
      obtain ⟨pos, mask', ⟨finalMask', lg'⟩, hfind, hif, hfound⟩ :=
        findOverlap_spec hn.layout ht hpos hbound mask finalMask lg
      rw [hts _ (by omega)] at hfound
      have hsplit : ¬ limit ≤ 6 → longest n.get (s.take (limit - 1)) =
          ((longest (below n.get t) ((s.drop 6).take (limit - 6 - 1))).map
            fun x => (t ++ x.1, x.2)).or (longest n.get (s.take (min limit 6 - 1))) := by
        intro hlong
        have hfull : t = s.take 6 := by rw [← hts 6 (by omega), List.take_of_length_le ht.le]
        rw [hfull, min_eq_right (by omega)]
        exact longest_take_of_lt n.get (by omega) hs
      rw [detectOverlapLoop, if_neg (by omega), strideOf_eq ip, ← htdef]
      simp only [hfind, hif, countEnlBitmap]
      by_cases hmem : value t ∈ members n.external
      · obtain ⟨c, hc⟩ := exists_kid hn.layout hmem
        rw [if_pos (testBitmap_iff.mpr hmem), (child_eq_kid hmem).trans hc, Option.bind_eq_bind,
          Option.bind_some, STRIDE_eq]
        by_cases hle : limit ≤ 6
        · -- the child is loaded, and then the loop ends
          refine ⟨(finalMask', lg'), ?_, ?_⟩
          · rw [detectOverlapLoop, if_pos (by omega)]
          · rwa [min_eq_left hle] at hfound
        · have hstep : u8 (step + 1) = step + 1 := by
            rw [u8, Nat.mod_eq_of_lt (by omega)]
          have horg : 6 * step + limit = 6 * (step + 1) + (limit - 6) := by omega
          obtain ⟨r, hrun, hr⟩ := ih (limit - 6) (by omega) (hn.kids hc)
            (hip.lshift (k := 6) (by decide) (by decide) (by omega)) (by omega)
            (by rw [List.length_drop]; omega) (step + 1) (by omega) mask' finalMask' lg'
          refine ⟨r, ?_, ?_⟩
          · rw [hstep, horg]
            exact hrun
          · rw [hsplit hle, below_get ht hc]
            exact hfound.append ht hr
      · rw [if_neg fun h => hmem (testBitmap_iff.mp h)]
        refine ⟨(finalMask', lg'), rfl, ?_⟩
        by_cases hle : limit ≤ 6
        · rwa [min_eq_left hle] at hfound
        · have hc : n.kid (value t) = none := lookup_of_notMem hmem
          have hnone : longest (fun _ => none : Table Bool Nhi) ((s.drop 6).take (limit - 6 - 1)) =
              none := longest_eq_none_iff.mpr fun _ _ => rfl
          rw [hsplit hle, below_get_of_none ht hc, hnone]
          exact hfound

/-- **`bitmap_detect_overlap_generic` finds the nearest shorter prefix** below the
limit, and the next hop of it.  The empty prefix does not count. -/
theorem detectOverlapGeneric_eq (hn : n.Wf w) {ip : α} {s : List Bool} (hip : Spells ip s)
    (bitsLimit : ℕ) :
    detectOverlapGeneric n ip s.length bitsLimit =
      some (match longest n.get (s.take (min s.length bitsLimit - 1)) with
        | some (_ :: u, v) => (u.length + 1, some v)
        | _ => (0, none)) := by
  have hle := hip.length_le
  have hlen := length_le (α := α)
  have hlimit :
      (if bitsLimit < s.length then bitsLimit else s.length) = min s.length bitsLimit := by
    split_ifs <;> omega
  rw [detectOverlapGeneric, hlimit]
  rcases Nat.eq_zero_or_pos (min s.length bitsLimit) with h0 | hpos
  · rw [h0, List.take_zero, detectOverlapLoop, if_pos rfl, longest]
    cases n.get [] <;> rfl
  · obtain ⟨⟨mask, lg⟩, hloop, hfound⟩ := detectOverlapLoop_spec hn hip hpos
      (min_le_left _ _) 0 (by omega) 0 0 none
    rw [Nat.mul_zero, Nat.zero_add] at hloop
    rw [hloop]
    rcases hl : longest n.get (s.take (min s.length bitsLimit - 1)) with _ | ⟨u, v⟩
    · rw [hl] at hfound
      cases hfound
      rfl
    · rw [hl] at hfound
      obtain ⟨hmask, p, hp, hv⟩ := hfound
      cases u with
      | nil =>
          obtain rfl : mask = 0 := hmask
          rfl
      | cons a u =>
          obtain rfl : mask = u.length + 1 := hmask.trans (by rw [List.length_cons]; omega)
          obtain rfl : lg = some p := hp
          simp [hv]

/-- `overlap_nhi` at the empty prefix: the next hop there is handed over, and exchanged
for another one. -/
theorem traverseBranch_overlapNhi (hn : n.Layout) {v : Nhi} (hv : n.get [] = some v) (d : Bool)
    (nhiNear : Nhi) :
    traverseBranch overlapNhi n (IpAddr.zero : α) 0 ⟨d, nhiNear, []⟩ =
      some (TRAVERSE_CONT, n.putRule 0 nhiNear, ⟨d, nhiNear, if d then [v] else []⟩) := by
  have hpos : leafPos (IpAddr.zero : α) 0 = 0 := spells_zero.leafPos_eq (by decide)
  have hrule : n.rule 0 = some v := (MbNode.get_of_lt (s := []) (by decide)).symm.trans hv
  have hmem := mem_of_rule hrule
  have hderef : (pointerToNhi n 0).deref = some v := (deref_pointerToNhi hmem).trans hrule
  rw [traverseBranch, if_pos (by decide), hpos, overlapNhi]
  simp only [hderef, assign_pointerToNhi hn hmem, Option.bind_eq_bind, Option.bind_some]
  cases d <;> rfl

end TreeBitmap
