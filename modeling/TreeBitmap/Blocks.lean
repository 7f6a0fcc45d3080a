import TreeBitmap.Colors

/-!
# The blocks of the page-colour allocator

Blocks are cut off areas, and a freed block waits in the list of its share and its size until
it is handed out again, as it is.  So the blocks that were ever cut do not overlap, and those
that the client holds are some of them, each once.

The mapping has an end, which `lma_init` does not look at.  As long as every new area is asked
for while there is room behind the last area of the share, nothing lies outside.

## Main definitions

* `Holding` — the invariant of a client's run.
* `mc_run_liveApart` — **live blocks never overlap**.
* `StepInside`, `AsksInside` — a call that stays inside the mapping, and the condition on it.
* `mc_run_inside_iff` — **a run stays inside the mapping just if it asks for areas in time**.
-/

namespace TreeBitmap

open Carving

variable {pfnbuf : ℕ → BitVec 64} {m : McPriv} {live : List McBlock}
  {blocks : Set ((Fin SHARE × ℕ) × Range)}

/-- The bytes of a block. -/
def rangeOf (p n : ℕ) : Range := ⟨p, p + n * NODE_SIZE⟩

/-- The bytes of a block that the client holds. -/
def McBlock.range (b : McBlock) : Range := rangeOf b.p b.nodeNum

theorem rangeOf_inj {p n p' n' : ℕ} (h : rangeOf p n = rangeOf p' n') : p = p' ∧ n = n' := by
  rw [rangeOf, rangeOf, Range.mk.injEq, NODE_SIZE] at h
  omega

/-- An area, up to `alloc` in use. -/
def LmArea.toArea (a : LmArea) : Area := ⟨a.start, a.alloc, a.alloc + a.left⟩

/-- The areas by share and number. -/
def McPriv.area (m : McPriv) (i : Fin SHARE × ℕ) : Option Area :=
  ((m.lm i.1)[i.2]?).map LmArea.toArea

theorem area_eq_some_iff {i : Fin SHARE × ℕ} {a : Area} :
    m.area i = some a ↔ ∃ b, (m.lm i.1)[i.2]? = some b ∧ b.toArea = a := Option.map_eq_some_iff

theorem area_setLma {s : Fin SHARE} {i : ℕ} {a b : LmArea} (hi : (m.lm s)[i]? = some a) :
    (m.setLma s i b).area = Function.update m.area (s, i) (some b.toArea) := by
  funext j
  rw [McPriv.area, getElem?_setLma hi, Function.update_apply]
  by_cases hj : j = (s, i)
  · rw [if_pos hj, if_pos (Prod.ext_iff.mp hj)]
    rfl
  · rw [if_neg hj, if_neg fun h => hj (Prod.ext h.1 h.2), McPriv.area]

theorem Areas.carved_empty (hm : Areas pfnbuf m) : Carved m.area ∅ := by
  refine Carving.carved_empty (fun i a ha => ?_) (fun i a ha => ?_) fun i j a b ha hb hij => ?_
  · obtain ⟨c, hc, rfl⟩ := area_eq_some_iff.mp ha
    exact (hm.placed _ c (List.mem_of_getElem? hc)).start_le
  · obtain ⟨c, hc, rfl⟩ := area_eq_some_iff.mp ha
    exact Nat.le_add_right _ _
  · obtain ⟨c, hc, rfl⟩ := area_eq_some_iff.mp ha
    obtain ⟨d, hd, rfl⟩ := area_eq_some_iff.mp hb
    have hcstop := (hm.placed _ c (List.mem_of_getElem? hc)).stop
    have hdstop := (hm.placed _ d (List.mem_of_getElem? hd)).stop
    have hapart := hm.apart hc hd hij
    rw [← hcstop, ← hdstop] at hapart
    exact hapart

/-- The blocks that were ever cut, and who has them now. -/
structure Holding (pfnbuf : ℕ → BitVec 64) (m : McPriv) (live : List McBlock)
    (blocks : Set ((Fin SHARE × ℕ) × Range)) : Prop where
  areas : Areas pfnbuf m
  sized : Sized live
  carved : Carved m.area blocks
  live_mem : ∀ b ∈ live, ∃ i, ((shareOf b.level, i), b.range) ∈ blocks
  live_nodup : (live.map McBlock.range).Nodup
  free_mem : ∀ s n, ∀ p ∈ m.freeHead s n, ∃ i, ((s, i), rangeOf p n) ∈ blocks
  free_nodup : ∀ s n, (m.freeHead s n).Nodup
  /-- A freed block is not held. -/
  free_live : ∀ s n, ∀ p ∈ m.freeHead s n, rangeOf p n ∉ live.map McBlock.range

theorem holding_mcInit (pfnbuf : ℕ → BitVec 64) : Holding pfnbuf (mcInit pfnbuf) [] ∅ := by
  have hfree : ∀ s n, (mcInit pfnbuf).freeHead s n = [] := by
    intro s n
    rw [mcInit_eq]
  exact ⟨areas_mcInit pfnbuf, by simp [Sized], (areas_mcInit pfnbuf).carved_empty, by simp,
    List.nodup_nil, by simp [hfree], by simp [hfree], by simp [hfree]⟩

section Steps

variable {s : Fin SHARE} {n level : ℕ}

theorem mem_freeHead_setFree {t : Fin SHARE} {k p : ℕ} {ps : List ℕ}
    (hp : p ∈ (m.setFree s n ps).freeHead t k) :
    t = s ∧ k = n ∧ p ∈ ps ∨ (t = s → k ≠ n) ∧ p ∈ m.freeHead t k := by
  simp only [McPriv.setFree, Function.update_apply] at hp
  by_cases hts : t = s
  · subst hts
    rw [if_pos rfl, Function.update_apply] at hp
    by_cases hkn : k = n
    · rw [if_pos hkn] at hp
      exact .inl ⟨rfl, hkn, hp⟩
    · rw [if_neg hkn] at hp
      exact .inr ⟨fun _ => hkn, hp⟩
  · rw [if_neg hts] at hp
    exact .inr ⟨fun h => absurd h hts, hp⟩

theorem nodup_freeHead_setFree (h : ∀ t k, (m.freeHead t k).Nodup) {ps : List ℕ} (hps : ps.Nodup)
    (t : Fin SHARE) (k : ℕ) : ((m.setFree s n ps).freeHead t k).Nodup := by
  simp only [McPriv.setFree, Function.update_apply]
  by_cases hts : t = s
  · subst hts
    rw [if_pos rfl, Function.update_apply]
    split_ifs
    · exact hps
    · exact h t k
  · rw [if_neg hts]
    exact h t k

/-- A freed block is handed out again. -/
theorem Holding.recycle (h : Holding pfnbuf m live blocks) (hpos : 1 ≤ n) (hn : n < 128) {p : ℕ}
    {ps : List ℕ} (hfree : m.freeHead (shareOf level) n = p :: ps) :
    Holding pfnbuf (m.setFree (shareOf level) n ps) (⟨p, n, level⟩ :: live) blocks := by
  have hp : p ∈ m.freeHead (shareOf level) n := hfree ▸ List.mem_cons_self
  have hnodup := h.free_nodup (shareOf level) n
  rw [hfree, List.nodup_cons] at hnodup
  obtain ⟨i, hi⟩ := h.free_mem _ n p hp
  refine ⟨h.areas.setFree _ _, h.sized.cons hpos hn p level, h.carved, ?_, ?_, ?_,
    nodup_freeHead_setFree h.free_nodup hnodup.2, ?_⟩
  · intro b hb
    rcases List.mem_cons.mp hb with rfl | hb
    · exact ⟨i, hi⟩
    · exact h.live_mem b hb
  · exact List.nodup_cons.mpr ⟨h.free_live _ n p hp, h.live_nodup⟩
  · intro t k q hq
    rcases mem_freeHead_setFree hq with ⟨rfl, rfl, hq'⟩ | ⟨-, hq'⟩
    · exact h.free_mem _ k q (hfree ▸ List.mem_cons_of_mem p hq')
    · exact h.free_mem t k q hq'
  · intro t k q hq hmem
    rw [List.map_cons, List.mem_cons] at hmem
    rcases mem_freeHead_setFree hq with ⟨rfl, rfl, hq'⟩ | ⟨hne, hq'⟩
    · rcases hmem with heq | hmem
      · obtain ⟨rfl, -⟩ := rangeOf_inj heq
        exact hnodup.1 hq'
      · exact h.free_live _ k q (hfree ▸ List.mem_cons_of_mem p hq') hmem
    · rcases hmem with heq | hmem
      · obtain ⟨rfl, rfl⟩ := rangeOf_inj heq
        obtain ⟨j, hj⟩ := h.free_mem t k q hq'
        have hshare := congrArg (fun b => b.1.1) (h.carved.eq_of_range_eq hj hi rfl)
        exact hne hshare rfl
      · exact h.free_live t k q hq' hmem

/-- A block is cut off an area. -/
theorem Holding.cut (h : Holding pfnbuf m live blocks) (hpos : 1 ≤ n) (hn : n < 128) {i : ℕ}
    {a : LmArea} (ha : (m.lm (shareOf level))[i]? = some a) (hfits : n * NODE_SIZE < a.left) :
    Holding pfnbuf (m.setLma (shareOf level) i (a.cut n)) (⟨a.alloc, n, level⟩ :: live)
      (insert ((shareOf level, i), rangeOf a.alloc n) blocks) := by
  have harea : m.area (shareOf level, i) = some a.toArea := area_eq_some_iff.mpr ⟨a, ha, rfl⟩
  have hlen : 0 < n * NODE_SIZE := Nat.mul_pos hpos (by decide)
  have hstop : a.toArea.mark + n * NODE_SIZE ≤ a.toArea.stop := Nat.add_le_add_left hfits.le _
  have hcut : (a.cut n).toArea = a.toArea.cut (n * NODE_SIZE) := by
    have hleft : a.alloc + n * NODE_SIZE + (a.left - n * NODE_SIZE) = a.alloc + a.left := by omega
    exact congrArg (Area.mk a.start (a.alloc + n * NODE_SIZE)) hleft
  have hnew : ∀ b ∈ blocks, b.2 ≠ rangeOf a.alloc n := fun b hb =>
    h.carved.ne_next harea hstop hb
  refine ⟨h.areas.cut ha hfits, h.sized.cons hpos hn _ level, ?_, ?_, ?_, ?_, h.free_nodup, ?_⟩
  · rw [area_setLma ha, hcut]
    exact h.carved.cut harea hlen hstop
  · intro b hb
    rcases List.mem_cons.mp hb with rfl | hb
    · exact ⟨i, Set.mem_insert _ _⟩
    · obtain ⟨j, hj⟩ := h.live_mem b hb
      exact ⟨j, Set.mem_insert_of_mem _ hj⟩
  · refine List.nodup_cons.mpr ⟨fun hmem => ?_, h.live_nodup⟩
    obtain ⟨b, hb, heq⟩ := List.mem_map.mp hmem
    obtain ⟨j, hj⟩ := h.live_mem b hb
    exact hnew _ hj heq
  · intro t k p hp
    obtain ⟨j, hj⟩ := h.free_mem t k p hp
    exact ⟨j, Set.mem_insert_of_mem _ hj⟩
  · intro t k p hp hmem
    rw [List.map_cons, List.mem_cons] at hmem
    rcases hmem with heq | hmem
    · obtain ⟨j, hj⟩ := h.free_mem t k p hp
      exact hnew _ hj heq
    · exact h.free_live t k p hp hmem

/-- An area is added. -/
theorem Holding.grow (h : Holding pfnbuf m live blocks) {last : LmArea}
    (hlast : (m.lm s).getLast? = some last) :
    Holding pfnbuf (lmaInit { m with lma := m.lma + 1 } s last) live blocks := by
  have hm := h.areas.count
  have hgrow := hm.grow hlast
  refine ⟨hgrow, h.sized, h.carved.extend hgrow.carved_empty ?_, h.live_mem, h.live_nodup,
    h.free_mem, h.free_nodup, h.free_live⟩
  intro i a ha
  obtain ⟨b, hb, rfl⟩ := area_eq_some_iff.mp ha
  refine area_eq_some_iff.mpr ⟨b, ?_, rfl⟩
  rw [hm.lm_lmaInit hlast, Function.update_apply]
  split_ifs with hs
  · rw [hs] at hb
    obtain ⟨hlt, -⟩ := List.getElem?_eq_some_iff.mp hb
    exact (List.getElem?_append_left hlt).trans hb
  · exact hb

/-- A block is given back. -/
theorem Holding.free (h : Holding pfnbuf m live blocks) {b : McBlock} (hb : b ∈ live) :
    Holding pfnbuf
      (m.setFree (shareOf b.level) b.nodeNum (b.p :: m.freeHead (shareOf b.level) b.nodeNum))
      (live.erase b) blocks := by
  have hperm := (List.perm_cons_erase hb).map McBlock.range
  have hnodup := hperm.nodup_iff.mp h.live_nodup
  rw [List.map_cons, List.nodup_cons] at hnodup
  have hnotMem : b.p ∉ m.freeHead (shareOf b.level) b.nodeNum := fun hp =>
    h.free_live _ _ b.p hp (List.mem_map_of_mem hb)
  have hsub : ∀ r, r ∈ (live.erase b).map McBlock.range → r ∈ live.map McBlock.range := by
    intro r hr
    exact hperm.mem_iff.mpr (List.mem_cons_of_mem _ hr)
  refine ⟨h.areas.setFree _ _, fun c hc => h.sized c (List.mem_of_mem_erase hc), h.carved,
    fun c hc => h.live_mem c (List.mem_of_mem_erase hc), hnodup.2, ?_,
    nodup_freeHead_setFree h.free_nodup (List.nodup_cons.mpr ⟨hnotMem, h.free_nodup _ _⟩), ?_⟩
  · intro t k q hq
    rcases mem_freeHead_setFree hq with ⟨rfl, rfl, hq'⟩ | ⟨-, hq'⟩
    · rcases List.mem_cons.mp hq' with rfl | hq'
      · exact h.live_mem b hb
      · exact h.free_mem _ _ q hq'
    · exact h.free_mem t k q hq'
  · intro t k q hq
    rcases mem_freeHead_setFree hq with ⟨rfl, rfl, hq'⟩ | ⟨-, hq'⟩
    · rcases List.mem_cons.mp hq' with rfl | hq'
      · exact hnodup.1
      · exact fun hmem => h.free_live _ _ q hq' (hsub _ hmem)
    · exact fun hmem => h.free_live t k q hq' (hsub _ hmem)

/-- **A step of the client** keeps the invariant. -/
theorem Holding.step (h : Holding pfnbuf m live blocks) {op : McCall} {m' : McPriv}
    {live' : List McBlock} (hcase : StepCase m live op m' live') :
    ∃ blocks', Holding pfnbuf m' live' blocks' := by
  cases hcase with
  | dealloc hb => exact ⟨blocks, h.free hb⟩
  | alloc hpos hn hcase =>
      cases hcase with
      | recycled hfree => exact ⟨blocks, h.recycle hpos hn hfree⟩
      | carved _ ha hfits => exact ⟨_, h.cut hpos hn ha hfits⟩
      | grown _ _ _ hlast hm₁ ha =>
          subst hm₁ ha
          exact ⟨_, (h.grow hlast).cut hpos hn (h.areas.count.getElem?_lmaInit hlast)
            (mul_NODE_SIZE_lt hn _)⟩
      | refused _ _ _ => exact ⟨blocks, h⟩

end Steps

/-! ## Live blocks never overlap -/

/-- What a client may rely on. -/
structure LiveApart (m : McPriv) (live : List McBlock) : Prop where
  /-- The blocks it holds do not overlap. -/
  apart : live.Pairwise fun b c => b.range.Apart c.range
  /-- Each is inside an area of the share of its level. -/
  inside : ∀ b ∈ live, ∃ a ∈ m.lm (shareOf b.level), a.start ≤ b.p ∧
    b.p + b.nodeNum * NODE_SIZE ≤ a.start + (m.cs (shareOf b.level)).size
  /-- A legal call does not fault; only `exit` keeps it from returning. -/
  returns : ∀ op, mcLegal (m, live) op → (∃ b, op = .dealloc b false) ∨ (mcStep (m, live) op).isSome

theorem Holding.exists_area (h : Holding pfnbuf m live blocks) {s : Fin SHARE} {i : ℕ} {r : Range}
    (hr : ((s, i), r) ∈ blocks) :
    ∃ a ∈ m.lm s, a.start ≤ r.start ∧ r.stop ≤ a.start + shareSize s := by
  obtain ⟨a, ha, hlow, hhigh⟩ := h.carved.within _ hr
  obtain ⟨c, hc, rfl⟩ := area_eq_some_iff.mp ha
  have hmem := List.mem_of_getElem? hc
  refine ⟨c, hmem, hlow, hhigh.trans ?_⟩
  rw [← (h.areas.placed s c hmem).stop]
  exact Nat.le_add_right _ _

theorem Holding.liveApart (h : Holding pfnbuf m live blocks) : LiveApart m live where
  apart := by
    have hne := List.pairwise_map.mp h.live_nodup
    refine hne.imp_of_mem fun hb hc hbc => ?_
    obtain ⟨i, hi⟩ := h.live_mem _ hb
    obtain ⟨j, hj⟩ := h.live_mem _ hc
    exact h.carved.apart _ hi _ hj fun heq => hbc (congrArg Prod.snd heq)
  inside := by
    intro b hb
    obtain ⟨i, hi⟩ := h.live_mem b hb
    rw [h.areas.cs]
    exact h.exists_area hi
  returns := by
    intro op hlegal
    refine (mcStep_spec h.areas h.sized hlegal).imp_right fun hspec => ?_
    obtain ⟨m', live', hstep, -⟩ := hspec
    rw [hstep]
    rfl

/-- **Live blocks never overlap**, in every run of a client, whatever the huge pages are. -/
theorem mc_run_liveApart (pfnbuf : ℕ → BitVec 64) {ops : List McCall}
    (hops : Run.Lawful mcStep mcLegal (mcInit pfnbuf, []) ops) {m : McPriv} {live : List McBlock}
    (hrun : ops.foldlM mcStep (mcInit pfnbuf, []) = some (m, live)) : LiveApart m live := by
  have hinv := Run.Lawful.invariant (P := fun st => ∃ blocks, Holding pfnbuf st.1 st.2 blocks) ?_
    ⟨∅, holding_mcInit pfnbuf⟩ hops hrun
  · obtain ⟨blocks, h⟩ := hinv
    exact h.liveApart
  · intro st op st' hst hlegal hstep
    obtain ⟨blocks, h⟩ := hst
    exact h.step (mcStep_cases h.areas h.sized hlegal hstep)

/-- Two blocks that do not fit in one area, and the first one is given back. -/
def twoAreas : List McCall :=
  [.alloc 127 2 true, .alloc 127 2 true, .dealloc ⟨28672, 127, 2⟩ true, .alloc 5 0 true]

theorem lawful_twoAreas : Run.Lawful mcStep mcLegal (mcInit fun _ => 0, []) twoAreas := by
  refine fun st₁ h₁ => ⟨⟨by decide, by decide⟩, fun st₂ h₂ => ⟨⟨by decide, by decide⟩, ?_⟩⟩
  refine fun st₃ h₃ => ⟨?_, fun st₄ h₄ => ⟨⟨by decide, by decide⟩, trivial⟩⟩
  obtain rfl := Option.some.inj h₁
  obtain rfl := Option.some.inj h₂
  exact List.mem_cons_of_mem _ List.mem_cons_self

theorem mc_run_liveApart_alloc :
    ∃ m live, twoAreas.foldlM mcStep (mcInit fun _ => 0, []) = some (m, live) ∧
      LiveApart m live :=
  ⟨_, _, rfl, mc_run_liveApart _ lawful_twoAreas rfl⟩

/-! ## The end of the mapping -/

/-- A call for `n` nodes finds neither a freed block nor an area with room. -/
def McPriv.NeedsArea (m : McPriv) (s : Fin SHARE) (n : ℕ) : Prop :=
  m.freeHead s n = [] ∧ ∀ a ∈ m.lm s, a.left ≤ n * NODE_SIZE

/-- The next area of the share would be inside the mapping. -/
def McPriv.HasRoom (m : McPriv) (s : Fin SHARE) : Prop :=
  ∀ last, (m.lm s).getLast? = some last → newStart m last + (m.cs s).size ≤ MEMORY_SIZE

/-- A call of `mc_alloc_node` that stays inside the mapping. -/
structure CallInside (m : McPriv) (nodeNum level : ℕ) (ret : Option ℕ) (m' : McPriv) : Prop where
  /-- The block is inside. -/
  block : ∀ p, ret = some p → p + nodeNum * NODE_SIZE ≤ MEMORY_SIZE
  /-- Every access to `pfnbuf` so far is inside. -/
  reads : ∀ i ∈ m'.pfnReads, i < MEMORY_SIZE / HPAGE_SIZE
  /-- The call returns `NULL` if it needs an area for which there is no room. -/
  null : m.NeedsArea (shareOf level) nodeNum → ¬ m.HasRoom (shareOf level) → ret = none

/-- A step of a client that stays inside the mapping. -/
def StepInside : McPriv × List McBlock → McCall → McPriv × List McBlock → Prop
  | (m, _), .alloc nodeNum level malloc, _ => ∀ ret m',
      mcAllocNode m nodeNum level malloc = some (ret, m') → CallInside m nodeNum level ret m'
  | _, .dealloc _ _, _ => True

/-- If the step adds an area, then the last area of the share is not too near the end. -/
def AsksInside : McPriv × List McBlock → McCall → McPriv × List McBlock → Prop
  | (m, _), .alloc nodeNum level malloc, _ => malloc → m.NeedsArea (shareOf level) nodeNum →
      ∀ last, (m.lm (shareOf level)).getLast? = some last →
        last.start + CACHE_OVERLAP + (m.cs (shareOf level)).size < MEMORY_SIZE
  | _, .dealloc _ _, _ => True

/-- All areas, and all accesses to `pfnbuf`, are inside. -/
structure Inside (m : McPriv) : Prop where
  areas : ∀ s, ∀ a ∈ m.lm s, a.start + shareSize s ≤ MEMORY_SIZE
  reads : ∀ i ∈ m.pfnReads, i < MEMORY_SIZE / HPAGE_SIZE

theorem MEMORY_SIZE_eq : MEMORY_SIZE = 33554432 := rfl

theorem MEMORY_SIZE_div : MEMORY_SIZE / HPAGE_SIZE = 16 := rfl

theorem inside_mcInit (pfnbuf : ℕ → BitVec 64) : Inside (mcInit pfnbuf) := by
  rw [mcInit_eq]
  refine ⟨fun s a ha => ?_, fun i hi => ?_⟩
  · obtain rfl := List.mem_singleton.mp ha
    have hle := firstPage_add_le s
    have hsize := shareSize_eq s
    rw [MEMORY_SIZE_eq]
    simp only
    omega
  · obtain rfl := List.mem_singleton.mp hi
    decide

section Inside

variable {s : Fin SHARE} {n level : ℕ} {malloc : Bool} {last : LmArea}

/-- The next area ends in the page that `lma_init` computes. -/
theorem newStart_add_le (hm : Areas pfnbuf m) (hlast : (m.lm s).getLast? = some last) :
    newStart m last + shareSize s ≤ (newPage m last + 1) * 2097152 := by
  have hpcs := (hm.placed s last (List.mem_of_getLast? hlast)).pcs
  have hpage := newPage_eq hm hpcs
  have hsize := shareSize_eq s
  have hle := sharePages_le s
  by_cases hne : newPage m last = lastPage last
  · have hsame : newStart m last = last.start + 32768 := if_neg (not_not.mpr hne)
    omega
  · obtain ⟨k, hk, hstart, -⟩ := exists_newStart hpcs hm hne
    rw [HPAGE_SIZE_eq, PAGE_SIZE_eq] at hstart
    omega

theorem Inside.cut (hin : Inside m) {i : ℕ} {a : LmArea} (ha : (m.lm s)[i]? = some a) :
    Inside (m.setLma s i (a.cut n)) := by
  refine ⟨fun t b hb => ?_, hin.reads⟩
  rcases mem_setLma ha hb with ⟨rfl, rfl⟩ | hb
  · exact hin.areas t a (List.mem_of_getElem? ha)
  · exact hin.areas t b hb

/-- An area that is asked for in time is inside. -/
theorem Inside.grow (hin : Inside m) (hm : Areas pfnbuf m) (hlast : (m.lm s).getLast? = some last)
    (hroom : last.start + 32768 + shareSize s < MEMORY_SIZE) : Inside (lmaInit m s last) := by
  have hpage := newPage_eq hm (hm.placed s last (List.mem_of_getLast? hlast)).pcs
  have hend := newStart_add_le hm hlast
  rw [MEMORY_SIZE_eq] at hroom
  refine ⟨fun t a ha => ?_, fun i hi => ?_⟩
  · rw [hm.lm_lmaInit hlast, Function.update_apply] at ha
    split_ifs at ha with hts
    · subst hts
      rw [List.mem_append, List.mem_singleton] at ha
      rcases ha with ha | rfl
      · exact hin.areas t a ha
      · rw [MEMORY_SIZE_eq]
        simp only [newLma]
        omega
    · exact hin.areas t a ha
  · simp only [lmaInit] at hi
    split_ifs at hi
    · rcases List.mem_cons.mp hi with rfl | hi
      · rw [MEMORY_SIZE_div]
        omega
      · exact hin.reads i hi
    · exact hin.reads i hi

/-- An area that is asked for too late is looked up outside `pfnbuf`. -/
theorem exists_read (hin : Inside m) (hm : Areas pfnbuf m) (hlast : (m.lm s).getLast? = some last)
    (hroom : ¬ last.start + 32768 + shareSize s < MEMORY_SIZE) :
    ∃ i ∈ (lmaInit m s last).pfnReads, ¬ i < MEMORY_SIZE / HPAGE_SIZE := by
  have hpage := newPage_eq hm (hm.placed s last (List.mem_of_getLast? hlast)).pcs
  have hmem := hin.areas s last (List.mem_of_getLast? hlast)
  have hsize := shareSize_eq s
  have hpos := sharePages_pos s
  rw [MEMORY_SIZE_eq] at hroom hmem
  have hne : newPage m last ≠ lastPage last := by
    rw [lastPage, HPAGE_SIZE_eq]
    omega
  refine ⟨newPage m last, ?_, ?_⟩
  · simp only [lmaInit, if_pos hne]
    exact List.mem_cons_self
  · rw [MEMORY_SIZE_div]
    omega

/-- A call that needs an area asks for it in time just if a whole window is left. -/
theorem asksInside_iff (hm : Areas pfnbuf m) (hneeds : m.NeedsArea (shareOf level) n)
    (hmalloc : malloc = true) (hlast : (m.lm (shareOf level)).getLast? = some last) {st} :
    AsksInside (m, live) (.alloc n level malloc) st ↔
      last.start + 32768 + shareSize (shareOf level) < MEMORY_SIZE := by
  constructor
  · intro hasks
    have hroom := hasks hmalloc hneeds last hlast
    rw [hm.cs] at hroom
    exact hroom
  · intro hroom _ _ last' hlast'
    rw [hlast] at hlast'
    cases hlast'
    rw [hm.cs]
    exact hroom

/-- **A call stays inside** just if it asks for an area in time. -/
theorem callInside_iff (h : Holding pfnbuf m live blocks) (hin : Inside m) {ret : Option ℕ}
    {m' : McPriv} (hcase : AllocCase m (shareOf level) n malloc ret m') (hn : n < 128) :
    (CallInside m n level ret m' ↔
      AsksInside (m, live) (.alloc n level malloc) (m', live)) ∧
    (AsksInside (m, live) (.alloc n level malloc) (m', live) → Inside m') := by
  cases hcase with
  | @recycled p ps hfree =>
      have hneeds : ¬ m.NeedsArea (shareOf level) n := fun hneeds => by
        rw [hneeds.1] at hfree
        cases hfree
      refine ⟨iff_of_true ⟨?_, hin.reads, fun h => absurd h hneeds⟩
        fun _ h => absurd h hneeds, fun _ => ⟨hin.areas, hin.reads⟩⟩
      intro q hq
      obtain rfl := Option.some.inj hq
      obtain ⟨i, hi⟩ := h.free_mem _ n p (hfree ▸ List.mem_cons_self)
      obtain ⟨a, ha, -, hstop⟩ := h.exists_area hi
      exact hstop.trans (hin.areas _ a ha)
  | @carved i a hfree ha hfits =>
      have hmem := List.mem_of_getElem? ha
      have hneeds : ¬ m.NeedsArea (shareOf level) n := fun hneeds =>
        (hneeds.2 a hmem).not_gt hfits
      refine ⟨iff_of_true ⟨?_, hin.reads, fun h => absurd h hneeds⟩
        fun _ h => absurd h hneeds, fun _ => hin.cut ha⟩
      intro q hq
      obtain rfl := Option.some.inj hq
      have hstop := (h.areas.placed _ a hmem).stop
      have hend := hin.areas _ a hmem
      omega
  | @grown m₁ last a hfree hfull hmalloc hlast hm₁ ha =>
      have hm := h.areas.count
      have hin' : Inside { m with lma := m.lma + 1 } := ⟨hin.areas, hin.reads⟩
      have hget := hm.getElem?_lmaInit hlast
      subst hm₁ ha
      rw [asksInside_iff h.areas ⟨hfree, hfull⟩ hmalloc hlast]
      by_cases hroom : last.start + 32768 + shareSize (shareOf level) < MEMORY_SIZE
      · have hgrow := hin'.grow hm hlast hroom
        have hend := hgrow.areas _ _ (List.mem_of_getElem? hget)
        refine ⟨iff_of_true ⟨?_, (hgrow.cut hget).reads, fun _ hno => ?_⟩ hroom,
          fun _ => hgrow.cut hget⟩
        · intro q hq
          obtain rfl := Option.some.inj hq
          exact (Nat.add_le_add_left (mul_NODE_SIZE_lt hn _).le _).trans hend
        · refine absurd (fun last' hlast' => ?_) hno
          rw [hlast] at hlast'
          cases hlast'
          rw [h.areas.cs]
          exact hend
      · obtain ⟨i, hi, hnot⟩ := exists_read hin' hm hlast hroom
        exact ⟨iff_of_false (fun hcall => hnot (hcall.reads i hi)) hroom, fun h => absurd h hroom⟩
  | refused hfree hfull hmalloc =>
      have hasks : AsksInside (m, live) (.alloc n level malloc) (m, live) := by
        intro htrue
        rw [hmalloc] at htrue
        cases htrue
      exact ⟨iff_of_true ⟨by simp, hin.reads, fun _ _ => rfl⟩ hasks, fun _ => hin⟩

/-- A call that asks for an area too late looks outside `pfnbuf`. -/
theorem exists_read_of_late (hm : Areas pfnbuf m) (hin : Inside m) {ret : Option ℕ} {m' : McPriv}
    (hcase : AllocCase m (shareOf level) n true ret m') {st : McPriv × List McBlock}
    (hlate : ¬ AsksInside (m, live) (.alloc n level true) st) :
    ∃ i ∈ m'.pfnReads, ¬ i < MEMORY_SIZE / HPAGE_SIZE := by
  simp only [AsksInside, forall_const, Classical.not_imp] at hlate
  obtain ⟨hneeds, hroom⟩ := hlate
  cases hcase with
  | recycled hfree =>
      rw [hneeds.1] at hfree
      cases hfree
  | carved _ ha hfits => exact absurd hfits (hneeds.2 _ (List.mem_of_getElem? ha)).not_gt
  | @grown m₁ last a hfree hfull hmalloc hlast hm₁ ha =>
      subst hm₁ ha
      have hin' : Inside { m with lma := m.lma + 1 } := ⟨hin.areas, hin.reads⟩
      refine exists_read hin' hm.count hlast fun hlt => hroom fun last' hlast' => ?_
      rw [hlast] at hlast'
      cases hlast'
      rw [hm.cs]
      exact hlt
  | refused _ _ hmalloc => cases hmalloc

end Inside

/-- **A run stays inside the mapping** just if every area that it needs is asked for while the
last area of the share ends more than a window before the end. -/
theorem mc_run_inside_iff (pfnbuf : ℕ → BitVec 64) {ops : List McCall}
    (hops : Run.Lawful mcStep mcLegal (mcInit pfnbuf, []) ops) :
    Run.Throughout mcStep StepInside (mcInit pfnbuf, []) ops ↔
      Run.Throughout mcStep AsksInside (mcInit pfnbuf, []) ops := by
  refine hops.throughout_iff (P := fun st => (∃ blocks, Holding pfnbuf st.1 st.2 blocks) ∧
    Inside st.1) ?_ ⟨⟨∅, holding_mcInit pfnbuf⟩, inside_mcInit pfnbuf⟩
  intro st op st' hst hlegal hstep
  obtain ⟨m, live⟩ := st
  obtain ⟨m', live'⟩ := st'
  obtain ⟨⟨blocks, h⟩, hin⟩ := hst
  obtain ⟨blocks', h'⟩ := h.step (mcStep_cases h.areas h.sized hlegal hstep)
  cases op with
  | alloc n level malloc =>
      obtain ⟨hpos, hn⟩ := hlegal
      obtain ⟨ret, m₁, halloc, hcase⟩ := mcAllocNode_spec h.areas hpos hn level malloc
      obtain ⟨hiff, hkeep⟩ := callInside_iff h hin hcase hn
      have hm₁ : m₁ = m' := by
        simp only [mcStep, halloc, Option.bind_eq_bind, Option.bind_some] at hstep
        cases ret <;> cases hstep <;> rfl
      have hcall : StepInside (m, live) (.alloc n level malloc) (m', live') ↔
          CallInside m n level ret m₁ := by
        constructor
        · intro hall
          exact hall ret m₁ halloc
        · intro hcall ret' m'' halloc'
          rw [halloc] at halloc'
          cases halloc'
          exact hcall
      exact ⟨hcall.trans hiff, fun hasks => ⟨⟨blocks', h'⟩, hm₁ ▸ hkeep hasks⟩⟩
  | dealloc b malloc =>
      refine ⟨Iff.rfl, fun _ => ⟨⟨blocks', h'⟩, ?_⟩⟩
      rcases mcStep_spec h.areas h.sized hlegal with ⟨c, hc⟩ | ⟨m₁, live₁, hstep₁, hcase⟩
      · cases hc
        cases hstep
      · rw [hstep] at hstep₁
        cases hstep₁
        cases hcase
        exact ⟨hin.areas, hin.reads⟩

theorem mc_run_inside_iff_alloc :
    Run.Throughout mcStep StepInside (mcInit fun _ => 0, []) twoAreas ↔
      Run.Throughout mcStep AsksInside (mcInit fun _ => 0, []) twoAreas :=
  mc_run_inside_iff (fun _ => 0) lawful_twoAreas

/-! ### A run that leaves the mapping -/

/-- The call for the largest block, for a level with one page in eight. -/
def leafCall : McCall := .alloc 127 2 true

theorem lawful_leafCalls (k : ℕ) (st : McPriv × List McBlock) :
    Run.Lawful mcStep mcLegal st (List.replicate k leafCall) := by
  induction k generalizing st with
  | zero => trivial
  | succ k ih => exact fun st' _ => ⟨⟨by decide, by decide⟩, ih st'⟩

/-- As long as such calls stay inside, each of them gets a block. -/
theorem exists_leafBlocks {k : ℕ} (h : Holding pfnbuf m live blocks) (hin : Inside m)
    (hleaf : ∀ b ∈ live, b.nodeNum = 127 ∧ b.level = 2)
    (hrun : Run.Throughout mcStep StepInside (m, live) (List.replicate k leafCall)) :
    ∃ m' live' blocks', Holding pfnbuf m' live' blocks' ∧ Inside m' ∧
      (∀ b ∈ live', b.nodeNum = 127 ∧ b.level = 2) ∧ live'.length = live.length + k := by
  induction k generalizing m live blocks with
  | zero => exact ⟨m, live, blocks, h, hin, hleaf, rfl⟩
  | succ k ih =>
      obtain ⟨ret, m₁, halloc, hcase⟩ := mcAllocNode_spec h.areas (n := 127) (by decide) (by decide)
        2 true
      obtain ⟨p, rfl⟩ : ∃ p, ret = some p := by
        cases hcase with
        | recycled _ => exact ⟨_, rfl⟩
        | carved _ _ _ => exact ⟨_, rfl⟩
        | grown _ _ _ _ _ _ => exact ⟨_, rfl⟩
        | refused _ _ hmalloc => cases hmalloc
      have hstep : mcStep (m, live) leafCall = some (m₁, ⟨p, 127, 2⟩ :: live) := by
        simp only [leafCall, mcStep, halloc, Option.bind_eq_bind, Option.bind_some]
      obtain ⟨hcall, hrest⟩ := hrun _ hstep
      obtain ⟨hiff, hkeep⟩ := callInside_iff h hin hcase (by decide)
      have hin₁ := hkeep (hiff.mp (hcall _ _ halloc))
      have hlegal : mcLegal (m, live) leafCall := ⟨by decide, by decide⟩
      obtain ⟨blocks₁, h₁⟩ := h.step (mcStep_cases h.areas h.sized hlegal hstep)
      have hleaf₁ : ∀ b ∈ (⟨p, 127, 2⟩ :: live : List McBlock), b.nodeNum = 127 ∧ b.level = 2 := by
        intro b hb
        rcases List.mem_cons.mp hb with rfl | hb
        · exact ⟨rfl, rfl⟩
        · exact hleaf b hb
      obtain ⟨m', live', blocks', h', hin', hleaf', hlen⟩ := ih h₁ hin₁ hleaf₁ hrest
      refine ⟨m', live', blocks', h', hin', hleaf', ?_⟩
      rw [hlen, List.length_cons]
      omega

/-- With all huge pages of one colour, there is a page for such a block in every window. -/
theorem exists_window (h : Holding (fun _ => 0) m live blocks) (hin : Inside m) {b : McBlock}
    (hb : b ∈ live) (hleaf : b.nodeNum = 127 ∧ b.level = 2) :
    ∃ x < 1024, x * 32768 + 28672 ≤ b.p ∧ b.p + 3048 ≤ x * 32768 + 32768 := by
  obtain ⟨i, hi⟩ := h.live_mem b hb
  obtain ⟨a, ha, hlow, hhigh⟩ := h.exists_area hi
  rw [hleaf.2] at ha hhigh
  obtain ⟨-, ⟨g, k, hstart, hk, hcolor⟩, -⟩ := h.areas.placed _ a ha
  have hend := hin.areas _ a ha
  have hsize : shareSize (shareOf 2) = 4096 := rfl
  have hfirst : shareColor (fun _ => 0) (shareOf 2) = 7 := rfl
  have hmod : k % 8 = 7 := by
    rw [hfirst, color, PAGE_COLORS] at hcolor
    simpa using hcolor
  rw [HPAGE_SIZE_eq, PAGE_SIZE_eq] at hstart
  rw [HPAGE_SIZE_div] at hk
  rw [hsize, MEMORY_SIZE_eq] at hend
  simp only [McBlock.range, rangeOf, hleaf.1, NODE_SIZE, hsize] at hlow hhigh
  exact ⟨(512 * g + k) / 8, by omega, by omega, by omega⟩

/-- There are 1024 such pages. -/
theorem length_le_of_inside (h : Holding (fun _ => 0) m live blocks) (hin : Inside m)
    (hleaf : ∀ b ∈ live, b.nodeNum = 127 ∧ b.level = 2) : live.length ≤ 1024 := by
  have hnodup : (live.map fun b => b.p / 32768).Nodup := by
    refine List.pairwise_map.mpr (h.liveApart.apart.imp_of_mem fun {b c} hb hc hapart heq => ?_)
    obtain ⟨x, -, hx, hx'⟩ := exists_window h hin hb (hleaf b hb)
    obtain ⟨y, -, hy, hy'⟩ := exists_window h hin hc (hleaf c hc)
    simp only [Range.Apart, McBlock.range, rangeOf, (hleaf b hb).1, (hleaf c hc).1,
      NODE_SIZE] at hapart
    omega
  have hsub : (live.map fun b => b.p / 32768).toFinset ⊆ Finset.range 1024 := by
    intro x hx
    obtain ⟨b, hb, rfl⟩ := List.mem_map.mp (List.mem_toFinset.mp hx)
    obtain ⟨y, hy, hlow, hhigh⟩ := exists_window h hin hb (hleaf b hb)
    rw [Finset.mem_range]
    omega
  have hcard := Finset.card_le_card hsub
  rwa [List.toFinset_card_of_nodup hnodup, List.length_map, Finset.card_range] at hcard

/-- The `1025`th call for 127 nodes at level 2 leaves the mapping. -/
theorem mc_run_outside :
    ¬ ∀ pfnbuf ops, Run.Lawful mcStep mcLegal (mcInit pfnbuf, []) ops →
      Run.Throughout mcStep StepInside (mcInit pfnbuf, []) ops := by
  intro hall
  have hrun := hall (fun _ => 0) (List.replicate 1025 leafCall) (lawful_leafCalls 1025 _)
  obtain ⟨m, live, blocks, h, hin, hleaf, hlen⟩ := exists_leafBlocks (holding_mcInit fun _ => 0)
    (inside_mcInit _) (fun _ hb => absurd hb List.not_mem_nil) hrun
  have hle := length_le_of_inside h hin hleaf
  rw [hlen] at hle
  exact absurd hle (by decide)

end TreeBitmap
