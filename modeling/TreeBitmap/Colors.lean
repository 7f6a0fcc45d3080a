import TreeBitmap.MmColor
import TreeBitmap.Lib.Carving

/-!
# Page colours

Every area of a share starts on a page of the colour of the share and ends in the same huge
page, so that its pages have the colours of the share; and the colours of the three shares
are different.  This is what the allocator is for, and it is also why the areas of
different shares never overlap, although each share goes through the mapping on its own.

## Main definitions

* `color pfnbuf h k` — the colour of page `k` of huge page `h`.
* `Placed`, `Areas` — where an area lies; the invariant of the lists of areas.
* `Areas.lmaInit` — the next area is placed.
* `Areas.apart` — areas do not overlap.
* `mc_run_colored` — **the colours stay separate**.
-/

namespace TreeBitmap

open Carving

/-- The colour of page `k` of huge page `h`. -/
def color (pfnbuf : ℕ → BitVec 64) (h k : ℕ) : ℕ := ((pfnbuf h).toNat + k) % PAGE_COLORS

/-- The pages of an area. -/
def sharePages (s : Fin SHARE) : ℕ := shareSize s / PAGE_SIZE

/-- The pages before the first area of a share: it starts where the previous share ends. -/
def firstPage : Fin SHARE → ℕ := ![0, 2, 7]

theorem shareSize_eq (s : Fin SHARE) : shareSize s = sharePages s * 4096 := by
  revert s
  decide

theorem sharePages_pos (s : Fin SHARE) : 1 ≤ sharePages s := by
  revert s
  decide

theorem sharePages_le (s : Fin SHARE) : sharePages s ≤ 5 := by
  revert s
  decide

theorem firstPage_add_le (s : Fin SHARE) : firstPage s + sharePages s ≤ 8 := by
  revert s
  decide

/-- The first areas follow each other. -/
theorem firstPage_apart {s t : Fin SHARE} (hst : s ≠ t) :
    firstPage s + sharePages s ≤ firstPage t ∨ firstPage t + sharePages t ≤ firstPage s := by
  revert s t
  decide

/-- The colour of a share is the colour of its first page. -/
def shareColor (pfnbuf : ℕ → BitVec 64) (s : Fin SHARE) : ℕ := color pfnbuf 0 (firstPage s)

variable {pfnbuf : ℕ → BitVec 64}

theorem shareColor_lt (s : Fin SHARE) : shareColor pfnbuf s < 8 := Nat.mod_lt _ (by decide)

variable (pfnbuf) in
/-- The colours of two shares are different. -/
theorem shareColor_add_ne {s t : Fin SHARE} (hst : s ≠ t) {i j : ℕ} (hi : i < sharePages s)
    (hj : j < sharePages t) :
    (shareColor pfnbuf s + i) % 8 ≠ (shareColor pfnbuf t + j) % 8 := by
  have hs := firstPage_add_le s
  have ht := firstPage_add_le t
  have hor := firstPage_apart hst
  simp only [shareColor, color, PAGE_COLORS]
  omega

/-- The first areas take one page of each colour. -/
theorem exists_share {x : ℕ} (hx : x < 8) :
    ∃ s, firstPage s ≤ x ∧ x < firstPage s + sharePages s := by
  revert x
  decide

theorem funext_share {β : Type} {f g : Fin SHARE → β} (h0 : f 0 = g 0) (h1 : f 1 = g 1)
    (h2 : f 2 = g 2) : f = g := by
  funext s
  match s with
  | 0 => exact h0
  | 1 => exact h1
  | 2 => exact h2

/-- `mc_init` gives each share its size and its colour, and one area in the first huge
page. -/
theorem mcInit_eq (pfnbuf : ℕ → BitVec 64) :
    mcInit pfnbuf = ⟨pfnbuf, fun s => ⟨shareColor pfnbuf s, shareSize s⟩,
      fun s => [⟨firstPage s * 4096, firstPage s * 4096, shareSize s, s⟩],
      fun _ _ => [], 0, [0]⟩ := by
  have hnext : ∀ i k, (color pfnbuf 0 i + k) % PAGE_COLORS = color pfnbuf 0 (i + k) := by
    intro i k
    simp only [color, PAGE_COLORS]
    omega
  have hrange : List.finRange SHARE = [0, 1, 2] := rfl
  have h10 : (1 : Fin SHARE) ≠ 0 := by decide
  have h20 : (2 : Fin SHARE) ≠ 0 := by decide
  have h21 : (2 : Fin SHARE) ≠ 1 := by decide
  have hsize0 : shareSize 0 / PAGE_SIZE = 2 := rfl
  have hsize1 : shareSize 1 / PAGE_SIZE = 5 := rfl
  have hfirst : (pfnbuf 0).toNat % PAGE_COLORS = color pfnbuf 0 0 := rfl
  simp only [mcInit, hrange, List.foldl_cons, List.foldl_nil, mcInitShare, if_true, if_neg h10,
    if_neg h20, Function.update_of_ne h10, Function.update_of_ne h20, Function.update_of_ne h21,
    hsize0, hsize1, hfirst, hnext, McPriv.mk.injEq]
  exact ⟨trivial, funext_share rfl rfl rfl, funext_share rfl rfl rfl, funext_share rfl rfl rfl,
    trivial, trivial⟩

/-! ## The areas -/

/-- An area of a share: it starts on page `k` of huge page `h`, with the colour of the share,
and ends in that huge page. -/
structure Placed (pfnbuf : ℕ → BitVec 64) (s : Fin SHARE) (a : LmArea) : Prop where
  pcs : a.pcs = s
  page : ∃ h k, a.start = h * HPAGE_SIZE + k * PAGE_SIZE ∧
    k + sharePages s ≤ HPAGE_SIZE / PAGE_SIZE ∧ color pfnbuf h k = shareColor pfnbuf s
  start_le : a.start ≤ a.alloc
  stop : a.alloc + a.left = a.start + shareSize s
  left_pos : 0 < a.left

/-- The invariant of the lists of areas. -/
structure Areas (pfnbuf : ℕ → BitVec 64) (m : McPriv) : Prop where
  pfn : m.pfnbuf = pfnbuf
  cs : ∀ s, m.cs s = ⟨shareColor pfnbuf s, shareSize s⟩
  ne_nil : ∀ s, m.lm s ≠ []
  placed : ∀ s, ∀ a ∈ m.lm s, Placed pfnbuf s a
  sorted : ∀ s, ((m.lm s).map LmArea.start).Pairwise (· + shareSize s ≤ ·)

theorem areas_mcInit (pfnbuf : ℕ → BitVec 64) : Areas pfnbuf (mcInit pfnbuf) := by
  rw [mcInit_eq]
  refine ⟨rfl, fun _ => rfl, fun _ => List.cons_ne_nil _ _, fun s a ha => ?_, fun s =>
    List.pairwise_singleton _ _⟩
  obtain rfl := List.mem_singleton.mp ha
  have hle := firstPage_add_le s
  have hpos := sharePages_pos s
  have hsize := shareSize_eq s
  have hleft : 0 < shareSize s := by omega
  refine ⟨rfl, ⟨0, firstPage s, ?_, ?_, rfl⟩, le_refl _, rfl, hleft⟩
  · rw [Nat.zero_mul, Nat.zero_add]
    rfl
  · exact hle.trans (by decide)

section Updates

variable {m : McPriv} {s : Fin SHARE}

/-- Only the areas and the colours count. -/
theorem Areas.congr (hm : Areas pfnbuf m) {m' : McPriv} (hpfn : m'.pfnbuf = m.pfnbuf)
    (hcs : m'.cs = m.cs) (hlm : m'.lm = m.lm) : Areas pfnbuf m' := by
  obtain ⟨pfn, cs, ne_nil, placed, sorted⟩ := hm
  exact ⟨hpfn.trans pfn, hcs ▸ cs, hlm ▸ ne_nil, hlm ▸ placed, hlm ▸ sorted⟩

theorem Areas.setFree (hm : Areas pfnbuf m) (n : ℕ) (ps : List ℕ) :
    Areas pfnbuf (m.setFree s n ps) := hm.congr rfl rfl rfl

theorem Areas.count (hm : Areas pfnbuf m) : Areas pfnbuf { m with lma := m.lma + 1 } :=
  hm.congr rfl rfl rfl

theorem getElem?_setLma {i j : ℕ} {a b : LmArea} {t : Fin SHARE} (hi : (m.lm s)[i]? = some a) :
    ((m.setLma s i b).lm t)[j]? = if t = s ∧ j = i then some b else (m.lm t)[j]? := by
  obtain ⟨hlt, -⟩ := List.getElem?_eq_some_iff.mp hi
  simp only [McPriv.setLma]
  by_cases hts : t = s
  · subst hts
    rw [Function.update_self]
    by_cases hji : j = i
    · rw [if_pos ⟨rfl, hji⟩, hji, List.getElem?_set_self hlt]
    · rw [if_neg fun h => hji h.2, List.getElem?_set_ne fun h => hji h.symm]
  · rw [if_neg fun h => hts h.1, Function.update_of_ne hts]

theorem mem_setLma {i : ℕ} {a b c : LmArea} {t : Fin SHARE} (hi : (m.lm s)[i]? = some a)
    (hc : c ∈ (m.setLma s i b).lm t) : t = s ∧ c = b ∨ c ∈ m.lm t := by
  obtain ⟨j, hj⟩ := List.mem_iff_getElem?.mp hc
  rw [getElem?_setLma hi] at hj
  split_ifs at hj with h
  · exact .inl ⟨h.1, (Option.some.inj hj).symm⟩
  · exact .inr (List.mem_of_getElem? hj)

theorem map_start_setLma {i : ℕ} {a b : LmArea} (hi : (m.lm s)[i]? = some a)
    (hb : b.start = a.start) (t : Fin SHARE) :
    ((m.setLma s i b).lm t).map LmArea.start = (m.lm t).map LmArea.start := by
  apply List.ext_getElem?
  intro j
  rw [List.getElem?_map, List.getElem?_map, getElem?_setLma hi]
  split_ifs with h
  · rw [h.1, h.2, hi, Option.map_some, Option.map_some, hb]
  · rfl

/-- A block is taken off an area. -/
theorem Areas.cut (hm : Areas pfnbuf m) {i n : ℕ} {a : LmArea} (hi : (m.lm s)[i]? = some a)
    (hn : n * NODE_SIZE < a.left) : Areas pfnbuf (m.setLma s i (a.cut n)) := by
  have hstarts := map_start_setLma (b := a.cut n) hi rfl
  refine ⟨hm.pfn, hm.cs, fun t => ?_, fun t b hb => ?_, fun t => hstarts t ▸ hm.sorted t⟩
  · intro hnil
    have hmap := hstarts t
    rw [hnil] at hmap
    exact hm.ne_nil t (List.map_eq_nil_iff.mp hmap.symm)
  · rcases mem_setLma hi hb with ⟨rfl, rfl⟩ | hb
    · obtain ⟨hpcs, hpage, hstart, hstop, hleft⟩ := hm.placed t a (List.mem_of_getElem? hi)
      refine ⟨hpcs, hpage, hstart.trans (Nat.le_add_right _ _), ?_, Nat.sub_pos_of_lt hn⟩
      simp only [LmArea.cut]
      omega
    · exact hm.placed t b hb

end Updates

/-- A jump to another huge page is to its first page of the colour. -/
theorem exists_newStart {s : Fin SHARE} {last : LmArea} (hpcs : last.pcs = s) {m : McPriv}
    (hm : Areas pfnbuf m) (hne : newPage m last ≠ lastPage last) :
    ∃ k < 8, newStart m last = newPage m last * HPAGE_SIZE + k * PAGE_SIZE ∧
      color pfnbuf (newPage m last) k = shareColor pfnbuf s := by
  have hcs : (m.cs last.pcs).pageColor = shareColor pfnbuf s := by rw [hpcs, hm.cs]
  have hlt : shareColor pfnbuf s < 8 := shareColor_lt s
  have hmod := Nat.mod_lt (pfnbuf (newPage m last)).toNat (y := 8) (by decide)
  simp only [newStart, if_pos hne, hcs, hm.pfn, color, PAGE_COLORS]
  split_ifs with h1 h2
  · exact ⟨_, by omega, rfl, by omega⟩
  · exact ⟨_, by omega, rfl, by omega⟩
  · exact ⟨0, by decide, by rw [Nat.zero_mul, Nat.add_zero], by omega⟩

theorem HPAGE_SIZE_eq : HPAGE_SIZE = 2097152 := rfl

theorem PAGE_SIZE_eq : PAGE_SIZE = 4096 := rfl

theorem HPAGE_SIZE_div : HPAGE_SIZE / PAGE_SIZE = 512 := rfl

theorem newPage_eq {m : McPriv} (hm : Areas pfnbuf m) {s : Fin SHARE} {last : LmArea}
    (hpcs : last.pcs = s) :
    newPage m last = (last.start + 32768 + shareSize s) / 2097152 := by
  rw [newPage, hpcs, hm.cs]
  rfl

/-- **The area after `last` is placed**, further on in the mapping. -/
theorem Placed.next {s : Fin SHARE} {last : LmArea} (h : Placed pfnbuf s last) {m : McPriv}
    (hm : Areas pfnbuf m) :
    Placed pfnbuf s ⟨newStart m last, newStart m last, shareSize s, s⟩ ∧
      last.start + shareSize s ≤ newStart m last := by
  obtain ⟨hpcs, ⟨h, k, hstart, hk, hcolor⟩, -⟩ := h
  have hsize := shareSize_eq s
  have hpos := sharePages_pos s
  have hle := sharePages_le s
  have hleft : 0 < shareSize s := by omega
  have hnew := newPage_eq hm hpcs
  rw [HPAGE_SIZE_eq, PAGE_SIZE_eq] at hstart
  rw [HPAGE_SIZE_div] at hk
  by_cases hne : newPage m last = lastPage last
  · have hsame : newStart m last = last.start + 32768 := if_neg (not_not.mpr hne)
    rw [lastPage, HPAGE_SIZE_eq] at hne
    have hcolor' : color pfnbuf h (k + 8) = shareColor pfnbuf s := by
      rw [← hcolor, color, color, PAGE_COLORS]
      omega
    refine ⟨⟨rfl, ⟨h, k + 8, ?_, ?_, hcolor'⟩, le_refl _, rfl, hleft⟩, by omega⟩
    · change newStart m last = _
      rw [HPAGE_SIZE_eq, PAGE_SIZE_eq, hsame]
      omega
    · rw [HPAGE_SIZE_div]
      omega
  · obtain ⟨k', hk', hstart', hcolor'⟩ := exists_newStart hpcs hm hne
    rw [lastPage, HPAGE_SIZE_eq] at hne
    refine ⟨⟨rfl, ⟨newPage m last, k', hstart', ?_, hcolor'⟩, le_refl _, rfl, hleft⟩, ?_⟩
    · rw [HPAGE_SIZE_div]
      omega
    · rw [hstart', HPAGE_SIZE_eq, PAGE_SIZE_eq]
      omega

/-- The area that `lma_init` adds. -/
def newLma (m : McPriv) (s : Fin SHARE) (last : LmArea) : LmArea :=
  ⟨newStart m last, newStart m last, shareSize s, s⟩

section Grow

variable {m : McPriv} {s : Fin SHARE} {last : LmArea}

theorem Areas.lm_lmaInit (hm : Areas pfnbuf m) (hlast : (m.lm s).getLast? = some last) :
    (lmaInit m s last).lm = Function.update m.lm s (m.lm s ++ [newLma m s last]) := by
  have hpcs := (hm.placed s last (List.mem_of_getLast? hlast)).pcs
  simp only [lmaInit, newLma, hpcs, hm.cs]

theorem Areas.getElem?_lmaInit (hm : Areas pfnbuf m) (hlast : (m.lm s).getLast? = some last) :
    ((lmaInit m s last).lm s)[(m.lm s).length]? = some (newLma m s last) := by
  rw [hm.lm_lmaInit hlast, Function.update_self, List.getElem?_concat_length]

/-- The last area is the one that is furthest on. -/
theorem Areas.start_le_last (hm : Areas pfnbuf m) (hlast : (m.lm s).getLast? = some last)
    {a : LmArea} (ha : a ∈ m.lm s) : a = last ∨ a.start + shareSize s ≤ last.start := by
  obtain ⟨front, hfront⟩ := List.getLast?_eq_some_iff.mp hlast
  have hsorted := hm.sorted s
  rw [hfront, List.mem_append, List.mem_singleton] at ha
  rw [hfront, List.map_append, List.pairwise_append] at hsorted
  rcases ha with ha | ha
  · exact .inr (hsorted.2.2 _ (List.mem_map_of_mem ha) _ (List.mem_singleton.mpr rfl))
  · exact .inl ha

/-- An area is added. -/
theorem Areas.grow (hm : Areas pfnbuf m) (hlast : (m.lm s).getLast? = some last) :
    Areas pfnbuf (lmaInit m s last) := by
  have hlm := hm.lm_lmaInit hlast
  have hplaced := hm.placed s last (List.mem_of_getLast? hlast)
  obtain ⟨hnew, hstart⟩ := hplaced.next hm
  refine ⟨hm.pfn, hm.cs, fun t => ?_, fun t a ha => ?_, fun t => ?_⟩
  · rw [hlm]
    by_cases hts : t = s
    · rw [hts, Function.update_self]
      exact List.append_ne_nil_of_right_ne_nil _ (List.cons_ne_nil _ _)
    · rw [Function.update_of_ne hts]
      exact hm.ne_nil t
  · rw [hlm] at ha
    by_cases hts : t = s
    · subst hts
      rw [Function.update_self, List.mem_append, List.mem_singleton] at ha
      rcases ha with ha | rfl
      · exact hm.placed t a ha
      · exact hnew
    · rw [Function.update_of_ne hts] at ha
      exact hm.placed t a ha
  · rw [hlm]
    by_cases hts : t = s
    · subst hts
      rw [Function.update_self, List.map_append]
      refine List.pairwise_append.mpr ⟨hm.sorted t, List.pairwise_singleton _ _, ?_⟩
      intro x hx y hy
      obtain ⟨a, ha, rfl⟩ := List.mem_map.mp hx
      obtain rfl := List.mem_singleton.mp hy
      rcases hm.start_le_last hlast ha with rfl | hle
      · exact hstart
      · exact (hle.trans (Nat.le_add_right _ _)).trans hstart
    · rw [Function.update_of_ne hts]
      exact hm.sorted t

end Grow

/-! ## Areas do not overlap -/

/-- Areas of different shares have pages of different colours. -/
theorem Placed.apart {s t : Fin SHARE} (hst : s ≠ t) {a b : LmArea} (ha : Placed pfnbuf s a)
    (hb : Placed pfnbuf t b) :
    a.start + shareSize s ≤ b.start ∨ b.start + shareSize t ≤ a.start := by
  obtain ⟨-, ⟨h, k, ha, hk, hcolor⟩, -⟩ := ha
  obtain ⟨-, ⟨h', k', hb, hk', hcolor'⟩, -⟩ := hb
  rw [HPAGE_SIZE_eq, PAGE_SIZE_eq] at ha hb
  rw [HPAGE_SIZE_div] at hk hk'
  have hs := shareSize_eq s
  have ht := shareSize_eq t
  by_contra hover
  push Not at hover
  -- both lie in one huge page, and one starts inside the other
  obtain rfl : h = h' := by omega
  rcases le_total k k' with hle | hle
  · refine shareColor_add_ne pfnbuf hst (i := k' - k) (by omega) (sharePages_pos t) ?_
    rw [← hcolor, ← hcolor', color, color, PAGE_COLORS]
    omega
  · refine shareColor_add_ne pfnbuf hst.symm (i := k - k') (by omega) (sharePages_pos s) ?_
    rw [← hcolor, ← hcolor', color, color, PAGE_COLORS]
    omega

/-- **Areas do not overlap**, whatever their shares. -/
theorem Areas.apart {m : McPriv} (hm : Areas pfnbuf m) {s t : Fin SHARE} {i j : ℕ} {a b : LmArea}
    (ha : (m.lm s)[i]? = some a) (hb : (m.lm t)[j]? = some b) (hne : (s, i) ≠ (t, j)) :
    a.start + shareSize s ≤ b.start ∨ b.start + shareSize t ≤ a.start := by
  by_cases hst : s = t
  · subst hst
    have hsorted := hm.sorted s
    rw [List.pairwise_map, List.pairwise_iff_getElem] at hsorted
    obtain ⟨hi, rfl⟩ := List.getElem?_eq_some_iff.mp ha
    obtain ⟨hj, rfl⟩ := List.getElem?_eq_some_iff.mp hb
    rcases lt_trichotomy i j with hlt | rfl | hlt
    · exact .inl (hsorted i j hi hj hlt)
    · exact absurd rfl hne
    · exact .inr (hsorted j i hj hi hlt)
  · exact (hm.placed s a (List.mem_of_getElem? ha)).apart hst
      (hm.placed t b (List.mem_of_getElem? hb))

/-! ## The two calls -/

section Calls

variable {m : McPriv} {s : Fin SHARE} {n : ℕ} {malloc : Bool}

/-- What a call of `lm_alloc` comes to. -/
inductive AllocCase (m : McPriv) (s : Fin SHARE) (n : ℕ) (malloc : Bool) : Option ℕ → McPriv → Prop
  /-- A freed block is handed out again. -/
  | recycled {p : ℕ} {ps : List ℕ} (hfree : m.freeHead s n = p :: ps) :
      AllocCase m s n malloc (some p) (m.setFree s n ps)
  /-- A block is cut off an area. -/
  | carved {i : ℕ} {a : LmArea} (hfree : m.freeHead s n = []) (ha : (m.lm s)[i]? = some a)
      (hfits : n * NODE_SIZE < a.left) :
      AllocCase m s n malloc (some a.alloc) (m.setLma s i (a.cut n))
  /-- A block is cut off a new area. -/
  | grown {m₁ : McPriv} {last a : LmArea} (hfree : m.freeHead s n = [])
      (hfull : ∀ a ∈ m.lm s, a.left ≤ n * NODE_SIZE) (hmalloc : malloc = true)
      (hlast : (m.lm s).getLast? = some last)
      (hm₁ : m₁ = lmaInit { m with lma := m.lma + 1 } s last) (ha : a = newLma m s last) :
      AllocCase m s n malloc (some a.alloc) (m₁.setLma s (m.lm s).length (a.cut n))
  /-- There is no room, and `malloc` fails. -/
  | refused (hfree : m.freeHead s n = []) (hfull : ∀ a ∈ m.lm s, a.left ≤ n * NODE_SIZE)
      (hmalloc : malloc = false) : AllocCase m s n malloc none m

/-- A new area has room for any block. -/
theorem mul_NODE_SIZE_lt (hn : n < 128) (s : Fin SHARE) : n * NODE_SIZE < shareSize s := by
  have hsize := shareSize_eq s
  have hpos := sharePages_pos s
  rw [NODE_SIZE]
  omega

theorem lmAlloc_spec (hm : Areas pfnbuf m) (hn : n < 128) (s : Fin SHARE) (malloc : Bool) :
    ∃ ret m', lmAlloc m n s malloc = some (ret, m') ∧ AllocCase m s n malloc ret m' := by
  have hbound : n < (1 <<< STRIDE) * 2 := hn
  simp only [lmAlloc, guard, if_pos hbound, Option.pure_def, Option.bind_eq_bind, Option.bind_some]
  rcases hfree : m.freeHead s n with _ | ⟨p, ps⟩
  · rcases hfind : (m.lm s).findIdx? fun lma => n * NODE_SIZE < lma.left with _ | i
    · have hfull : ∀ a ∈ m.lm s, a.left ≤ n * NODE_SIZE := by
        intro a ha
        have := List.findIdx?_eq_none_iff.mp hfind a ha
        simpa using this
      have hlast := List.getLast?_eq_some_getLast (hm.ne_nil s)
      cases malloc with
      | false =>
          refine ⟨none, m, ?_, .refused hfree hfull rfl⟩
          simp [findLma, hfind, hlast]
      | true =>
          have hlm := hm.count.lm_lmaInit hlast
          refine ⟨_, _, ?_, .grown hfree hfull rfl hlast rfl rfl⟩
          have hfits : n * NODE_SIZE < shareSize s := mul_NODE_SIZE_lt hn s
          simp [findLma, hfind, hlast, hlm, lmaAlloc, newLma, hfits]
          exact ⟨rfl, rfl⟩
    · obtain ⟨hi, hfits, -⟩ := List.findIdx?_eq_some_iff_getElem.mp hfind
      have hfits' : n * NODE_SIZE < (m.lm s)[i].left := by simpa using hfits
      refine ⟨_, _, ?_, .carved hfree (List.getElem?_eq_getElem hi) hfits'⟩
      simp [findLma, hfind, lmaAlloc, hi, hfits']
  · exact ⟨some p, _, rfl, .recycled hfree⟩

theorem mcAllocNode_spec (hm : Areas pfnbuf m) (hpos : 1 ≤ n) (hn : n < 128) (level : ℕ)
    (malloc : Bool) :
    ∃ ret m', mcAllocNode m n level malloc = some (ret, m') ∧
      AllocCase m (shareOf level) n malloc ret m' := by
  have hnot : ¬ (1 <<< STRIDE) * 2 < n := hn.le.not_gt
  rw [mcAllocNode, if_neg (by omega), if_neg hnot]
  exact lmAlloc_spec hm hn (shareOf level) malloc

theorem mcDeallocNode_eq (hn : n < 128) (m : McPriv) (level p : ℕ) :
    mcDeallocNode m n level p true =
      some (m.setFree (shareOf level) n (p :: m.freeHead (shareOf level) n)) := by
  have hbound : n < (1 <<< STRIDE) * 2 := hn
  rw [mcDeallocNode, if_neg hbound.le.not_gt]
  simp only [guard, if_pos hbound]
  rfl

theorem Areas.allocCase (hm : Areas pfnbuf m) {ret : Option ℕ} {m' : McPriv}
    (h : AllocCase m s n malloc ret m') (hn : n < 128) : Areas pfnbuf m' := by
  cases h with
  | recycled _ => exact hm.setFree _ _
  | carved _ ha hfits => exact hm.cut ha hfits
  | grown _ _ _ hlast hm₁ ha =>
      subst hm₁ ha
      exact (hm.count.grow hlast).cut (hm.count.getElem?_lmaInit hlast) (mul_NODE_SIZE_lt hn s)
  | refused _ _ _ => exact hm

/-- The client holds blocks of sizes that it could have asked for. -/
def Sized (live : List McBlock) : Prop := ∀ b ∈ live, 1 ≤ b.nodeNum ∧ b.nodeNum < 128

theorem Sized.cons {live : List McBlock} (h : Sized live) (hpos : 1 ≤ n) (hn : n < 128)
    (p level : ℕ) : Sized (⟨p, n, level⟩ :: live) :=
  List.forall_mem_cons.mpr ⟨⟨hpos, hn⟩, h⟩

/-- What a step of the client comes to. -/
inductive StepCase (m : McPriv) (live : List McBlock) : McCall → McPriv → List McBlock → Prop
  | alloc {n level : ℕ} {malloc : Bool} {ret : Option ℕ} {m' : McPriv} (hpos : 1 ≤ n) (hn : n < 128)
      (h : AllocCase m (shareOf level) n malloc ret m') :
      StepCase m live (.alloc n level malloc) m' (ret.elim live (⟨·, n, level⟩ :: live))
  | dealloc {b : McBlock} (hb : b ∈ live) :
      StepCase m live (.dealloc b true)
        (m.setFree (shareOf b.level) b.nodeNum (b.p :: m.freeHead (shareOf b.level) b.nodeNum))
        (live.erase b)

/-- A legal call does not fault; only `exit` keeps it from returning. -/
theorem mcStep_spec (hm : Areas pfnbuf m) {live : List McBlock} (hlive : Sized live) {op : McCall}
    (hlegal : mcLegal (m, live) op) :
    (∃ b, op = .dealloc b false) ∨
      ∃ m' live', mcStep (m, live) op = some (m', live') ∧ StepCase m live op m' live' := by
  cases op with
  | alloc n level malloc =>
      obtain ⟨hpos, hn⟩ := hlegal
      obtain ⟨ret, m', halloc, hcase⟩ := mcAllocNode_spec hm hpos hn level malloc
      refine .inr ⟨m', _, ?_, .alloc hpos hn hcase⟩
      simp only [mcStep, halloc, Option.bind_eq_bind, Option.bind_some]
      cases ret <;> rfl
  | dealloc b malloc =>
      cases malloc with
      | false => exact .inl ⟨b, rfl⟩
      | true =>
          refine .inr ⟨_, _, ?_, .dealloc hlegal⟩
          simp only [mcStep, mcDeallocNode_eq (hlive b hlegal).2, Option.bind_eq_bind,
            Option.bind_some]

theorem mcStep_cases (hm : Areas pfnbuf m) {live live' : List McBlock} (hlive : Sized live)
    {op : McCall} (hlegal : mcLegal (m, live) op) {m' : McPriv}
    (hstep : mcStep (m, live) op = some (m', live')) : StepCase m live op m' live' := by
  rcases mcStep_spec hm hlive hlegal with ⟨b, rfl⟩ | ⟨m₁, live₁, hstep₁, hcase⟩
  · cases hstep
  · rw [hstep] at hstep₁
    cases hstep₁
    exact hcase

theorem StepCase.areas {live live' : List McBlock} {op : McCall} {m' : McPriv}
    (h : StepCase m live op m' live') (hm : Areas pfnbuf m) : Areas pfnbuf m' := by
  cases h with
  | alloc _ hn hcase => exact hm.allocCase hcase hn
  | dealloc _ => exact hm.setFree _ _

theorem StepCase.sized {live live' : List McBlock} {op : McCall} {m' : McPriv}
    (h : StepCase m live op m' live') (hlive : Sized live) : Sized live' := by
  cases h with
  | @alloc n level malloc ret m' hpos hn _ =>
      cases ret with
      | none => exact hlive
      | some p => exact hlive.cons hpos hn p level
  | dealloc _ => exact fun b hb => hlive b (List.mem_of_mem_erase hb)

end Calls

/-! ## The colours of the shares -/

/-- The colours that belong to a share. -/
def McPriv.colors (m : McPriv) (s : Fin SHARE) : Finset ℕ :=
  (Finset.range ((m.cs s).size / PAGE_SIZE)).image fun j => ((m.cs s).pageColor + j) % PAGE_COLORS

/-- The areas keep to the colours of their shares, which are separate. -/
structure Colored (pfnbuf : ℕ → BitVec 64) (m : McPriv) : Prop where
  /-- Every page that an area reaches into has a colour of its share. -/
  colors : ∀ s, ∀ a ∈ m.lm s, ∀ h k, k < HPAGE_SIZE / PAGE_SIZE →
    a.start < h * HPAGE_SIZE + (k + 1) * PAGE_SIZE →
    h * HPAGE_SIZE + k * PAGE_SIZE < a.start + (m.cs s).size → color pfnbuf h k ∈ m.colors s
  /-- No colour belongs to two shares. -/
  disjoint : ∀ s t, s ≠ t → Disjoint (m.colors s) (m.colors t)
  /-- Every colour belongs to a share. -/
  all : Finset.univ.biUnion m.colors = Finset.range PAGE_COLORS
  /-- An area lies inside a huge page. -/
  huge : ∀ s, ∀ a ∈ m.lm s, ∃ h, h * HPAGE_SIZE ≤ a.start ∧
    a.start + (m.cs s).size ≤ (h + 1) * HPAGE_SIZE

theorem Areas.mem_colors {m : McPriv} (hm : Areas pfnbuf m) {s : Fin SHARE} {c : ℕ} :
    c ∈ m.colors s ↔ ∃ j < sharePages s, (shareColor pfnbuf s + j) % 8 = c := by
  rw [McPriv.colors, Finset.mem_image, hm.cs]
  simp only [Finset.mem_range]
  rfl

theorem Areas.colored {m : McPriv} (hm : Areas pfnbuf m) : Colored pfnbuf m where
  colors := by
    intro s a ha h k hk hlow hhigh
    obtain ⟨-, ⟨h₀, k₀, hstart, hk₀, hcolor⟩, -⟩ := hm.placed s a ha
    have hsize := shareSize_eq s
    rw [hm.cs] at hhigh
    simp only at hhigh
    rw [HPAGE_SIZE_eq, PAGE_SIZE_eq] at hstart hlow hhigh
    rw [HPAGE_SIZE_div] at hk hk₀
    obtain rfl : h = h₀ := by omega
    refine hm.mem_colors.mpr ⟨k - k₀, by omega, ?_⟩
    rw [← hcolor, color, color, PAGE_COLORS]
    omega
  disjoint := by
    intro s t hst
    rw [Finset.disjoint_left]
    intro c hs ht
    obtain ⟨i, hi, rfl⟩ := hm.mem_colors.mp hs
    obtain ⟨j, hj, hij⟩ := hm.mem_colors.mp ht
    exact shareColor_add_ne pfnbuf hst hi hj hij.symm
  all := by
    ext c
    rw [Finset.mem_biUnion, Finset.mem_range, PAGE_COLORS]
    constructor
    · intro h
      obtain ⟨s, -, hc⟩ := h
      obtain ⟨j, -, rfl⟩ := hm.mem_colors.mp hc
      exact Nat.mod_lt _ (by decide)
    · intro hc
      -- the page of the first huge page that has the colour
      obtain ⟨s, hle, hlt⟩ := exists_share (x := (c + 8 - color pfnbuf 0 0) % 8)
        (Nat.mod_lt _ (by decide))
      refine ⟨s, Finset.mem_univ s, hm.mem_colors.mpr
        ⟨(c + 8 - color pfnbuf 0 0) % 8 - firstPage s, by omega, ?_⟩⟩
      simp only [shareColor, color, PAGE_COLORS] at hle ⊢
      omega
  huge := by
    intro s a ha
    obtain ⟨-, ⟨h, k, hstart, hk, -⟩, -⟩ := hm.placed s a ha
    have hsize := shareSize_eq s
    refine ⟨h, by omega, ?_⟩
    rw [hm.cs]
    simp only
    rw [HPAGE_SIZE_eq, PAGE_SIZE_eq] at hstart
    rw [HPAGE_SIZE_div] at hk
    rw [HPAGE_SIZE_eq]
    omega

/-- **The colours stay separate**, in every run of a client, whatever the huge pages are. -/
theorem mc_run_colored (pfnbuf : ℕ → BitVec 64) {ops : List McCall}
    (hops : Run.Lawful mcStep mcLegal (mcInit pfnbuf, []) ops) {m : McPriv} {live : List McBlock}
    (hrun : ops.foldlM mcStep (mcInit pfnbuf, []) = some (m, live)) : Colored pfnbuf m := by
  have hinv := Run.Lawful.invariant (P := fun st => Areas pfnbuf st.1 ∧ Sized st.2) ?_
    ⟨areas_mcInit pfnbuf, fun _ hb => absurd hb List.not_mem_nil⟩ hops hrun
  · exact hinv.1.colored
  · intro st op st' hst hlegal hstep
    have hcase := mcStep_cases hst.1 hst.2 hlegal hstep
    exact ⟨hcase.areas hst.1, hcase.sized hst.2⟩

theorem mc_run_colored_alloc :
    ∃ m live, [McCall.alloc 127 2 true, .alloc 127 2 true].foldlM mcStep (mcInit fun _ => 0, []) =
      some (m, live) ∧ Colored (fun _ => 0) m := by
  have hops : Run.Lawful mcStep mcLegal (mcInit fun _ => 0, [])
      [.alloc 127 2 true, .alloc 127 2 true] :=
    fun _ _ => ⟨⟨by decide, by decide⟩, fun _ _ => ⟨⟨by decide, by decide⟩, trivial⟩⟩
  exact ⟨_, _, rfl, mc_run_colored _ hops rfl⟩

end TreeBitmap
