import TreeBitmap.Blocks
import TreeBitmap.Lib.HighWater

/-!
# What the page-colour allocator takes

A block that is given back waits in the list of its share and its size, and is handed out again only
for these.  It is not split, not joined to its neighbours, and not given back to its area.  So of
each share and size there are as many blocks as the client ever held at once, and what is cut off
the areas of a share is the sum of these peaks: sizes that are asked for at different times add up.

## Main definitions

* `demand live s n` — how many blocks the client holds; `McPriv.stock` — how many there are.
* `McPriv.taken` — the bytes that are cut off the areas of a share.
* `StepCase.stock_eq`, `StepCase.balanced` — a call.
* `mc_run_peaks` — **what is taken is what was held at once**.
-/

namespace TreeBitmap

variable {pfnbuf : ℕ → BitVec 64} {m m' : McPriv} {live live' : List McBlock}
  {blocks : Set ((Fin SHARE × ℕ) × Carving.Range)} {s t : Fin SHARE} {n k i : ℕ} {a b : LmArea}

/-- The blocks of a share and a size that the client holds. -/
def demand (live : List McBlock) (s : Fin SHARE) (n : ℕ) : ℕ :=
  live.countP fun b => decide (shareOf b.level = s ∧ b.nodeNum = n)

/-- The blocks of a share and a size, held or freed. -/
def McPriv.stock (m : McPriv) (live : List McBlock) (s : Fin SHARE) (n : ℕ) : ℕ :=
  demand live s n + (m.freeHead s n).length

/-- The bytes that are cut off the areas of a share. -/
def McPriv.taken (m : McPriv) (s : Fin SHARE) : ℕ := ((m.lm s).map fun a => a.alloc - a.start).sum

/-! ## The stock -/

theorem demand_cons (c : McBlock) (live : List McBlock) (t : Fin SHARE) (k : ℕ) :
    demand (c :: live) t k =
      demand live t k + if shareOf c.level = t ∧ c.nodeNum = k then 1 else 0 := by
  simp only [demand, List.countP_cons, decide_eq_true_eq]

theorem demand_erase {c : McBlock} (hc : c ∈ live) (t : Fin SHARE) (k : ℕ) :
    demand live t k =
      demand (live.erase c) t k + if shareOf c.level = t ∧ c.nodeNum = k then 1 else 0 := by
  rw [← demand_cons]
  exact (List.perm_cons_erase hc).countP_eq _

theorem freeHead_setFree (ps : List ℕ) (t : Fin SHARE) (k : ℕ) :
    (m.setFree s n ps).freeHead t k = if s = t ∧ n = k then ps else m.freeHead t k := by
  simp only [McPriv.setFree, Function.update_apply]
  by_cases hts : t = s
  · subst hts
    rw [if_pos rfl, Function.update_apply]
    by_cases hkn : k = n
    · rw [if_pos hkn, if_pos ⟨rfl, hkn.symm⟩]
    · rw [if_neg hkn, if_neg fun h => hkn h.2.symm]
  · rw [if_neg hts, if_neg fun h => hts h.1.symm]

/-! ## What is taken -/

theorem sum_map_set {l : List LmArea} (hi : l[i]? = some a) (f : LmArea → ℕ) (b : LmArea) :
    ((l.set i b).map f).sum + f a = (l.map f).sum + f b := by
  obtain ⟨hlt, rfl⟩ := List.getElem?_eq_some_iff.mp hi
  have hset := ((List.set_perm_cons_eraseIdx hlt b).map f).sum_eq
  have hself := ((List.set_perm_cons_eraseIdx hlt l[i]).map f).sum_eq
  rw [List.set_getElem_self] at hself
  rw [hset, hself, List.map_cons, List.map_cons, List.sum_cons, List.sum_cons]
  omega

/-- A block is cut off an area. -/
theorem taken_cut (hi : (m.lm s)[i]? = some a) (ha : a.start ≤ a.alloc) (n : ℕ) (t : Fin SHARE) :
    (m.setLma s i (a.cut n)).taken t = m.taken t + if s = t then n * NODE_SIZE else 0 := by
  simp only [McPriv.taken, McPriv.setLma, Function.update_apply]
  by_cases hts : t = s
  · subst hts
    have hsum := sum_map_set hi (fun a => a.alloc - a.start) (a.cut n)
    rw [if_pos rfl, if_pos rfl]
    simp only [LmArea.cut] at hsum ⊢
    omega
  · rw [if_neg hts, if_neg fun h => hts h.symm, add_zero]

/-- Nothing is cut off a new area yet. -/
theorem Areas.taken_lmaInit (hm : Areas pfnbuf m) {last : LmArea}
    (hlast : (m.lm s).getLast? = some last) (t : Fin SHARE) :
    (lmaInit m s last).taken t = m.taken t := by
  rw [McPriv.taken, hm.lm_lmaInit hlast, McPriv.taken, Function.update_apply]
  by_cases hts : t = s
  · subst hts
    rw [if_pos rfl, List.map_append, List.sum_append]
    simp [newLma]
  · rw [if_neg hts]

/-! ## A call -/

/-- A call that moves a block between the client and the free lists, or does nothing. -/
structure Moved (m m' : McPriv) (live live' : List McBlock) : Prop where
  stock : ∀ t k, m'.stock live' t k = m.stock live t k
  taken : ∀ t, m'.taken t = m.taken t

/-- A call that is answered with a new block. -/
structure Cut (s : Fin SHARE) (n : ℕ) (m m' : McPriv) (live live' : List McBlock) : Prop where
  size : n < 128
  free : m.freeHead s n = []
  freeHead : m'.freeHead = m.freeHead
  demand : ∀ t k, demand live' t k = demand live t k + if s = t ∧ n = k then 1 else 0
  taken : ∀ t, m'.taken t = m.taken t + if s = t then n * NODE_SIZE else 0

theorem StepCase.moved_or_cut {op : McCall} (h : StepCase m live op m' live')
    (hm : Areas pfnbuf m) : Moved m m' live live' ∨ ∃ s n, Cut s n m m' live live' := by
  cases h with
  | @dealloc c hc =>
      refine .inl ⟨fun t k => ?_, fun _ => rfl⟩
      rw [McPriv.stock, McPriv.stock, freeHead_setFree, demand_erase hc t k]
      split_ifs with heq
      · obtain ⟨rfl, rfl⟩ := heq
        rw [List.length_cons]
        omega
      · omega
  | @alloc n level malloc ret m' hpos hn hcase =>
      cases hcase with
      | recycled hfree =>
          refine .inl ⟨fun t k => ?_, fun _ => rfl⟩
          rw [McPriv.stock, McPriv.stock, freeHead_setFree, Option.elim_some, demand_cons]
          split_ifs with heq
          · obtain ⟨rfl, rfl⟩ := heq
            rw [hfree, List.length_cons]
            omega
          · omega
      | carved hfree ha hfits =>
          have hplaced := hm.placed _ _ (List.mem_of_getElem? ha)
          exact .inr ⟨_, n, hn, hfree, rfl, demand_cons _ live, taken_cut ha hplaced.start_le n⟩
      | grown hfree hfull hmalloc hlast hm₁ ha =>
          subst hm₁ ha
          refine .inr ⟨_, n, hn, hfree, rfl, demand_cons _ live, fun t => ?_⟩
          have hcut := taken_cut (hm.count.getElem?_lmaInit hlast) (le_refl _) n t
          rw [hm.count.taken_lmaInit hlast] at hcut
          exact hcut
      | refused hfree hfull hmalloc => exact .inl ⟨fun _ _ => rfl, fun _ => rfl⟩

/-- **The stock after a call** is the greater one of the stock before and of what is held now. -/
theorem StepCase.stock_eq {op : McCall} (h : StepCase m live op m' live') (hm : Areas pfnbuf m)
    (t : Fin SHARE) (k : ℕ) :
    m'.stock live' t k = max (m.stock live t k) (demand live' t k) := by
  rcases h.moved_or_cut hm with hmoved | ⟨s, n, hcut⟩
  · have hle : demand live' t k ≤ m.stock live t k :=
      hmoved.stock t k ▸ Nat.le_add_right _ _
    rw [hmoved.stock, max_eq_left hle]
  · rw [McPriv.stock, McPriv.stock, hcut.freeHead, hcut.demand]
    split_ifs with heq
    · -- there was no freed block of this share and size
      obtain ⟨rfl, rfl⟩ := heq
      rw [hcut.free, List.length_nil]
      omega
    · omega

/-- What is cut off the areas is what there is. -/
def Balanced (m : McPriv) (live : List McBlock) : Prop :=
  ∀ t, m.taken t = ∑ k ∈ Finset.range 128, m.stock live t k * (k * NODE_SIZE)

theorem StepCase.balanced {op : McCall} (h : StepCase m live op m' live') (hm : Areas pfnbuf m)
    (hb : Balanced m live) : Balanced m' live' := by
  intro t
  rcases h.moved_or_cut hm with hmoved | ⟨s, n, hcut⟩
  · rw [hmoved.taken, hb t]
    exact Finset.sum_congr rfl fun k _ => by rw [hmoved.stock]
  · have hstock : ∀ k, m'.stock live' t k = m.stock live t k + if s = t ∧ n = k then 1 else 0 := by
      intro k
      rw [McPriv.stock, McPriv.stock, hcut.freeHead, hcut.demand]
      omega
    have hterm : ∀ k, (if s = t ∧ n = k then 1 else 0) * (k * NODE_SIZE) =
        if n = k then (if s = t then n * NODE_SIZE else 0) else 0 := by
      intro k
      by_cases hk : n = k
      · subst hk
        by_cases hs : s = t <;> simp [hs]
      · simp [hk]
    rw [hcut.taken, hb t]
    simp only [hstock, Nat.add_mul, hterm, Finset.sum_add_distrib, Finset.sum_ite_eq,
      Finset.mem_range, hcut.size, if_true]

theorem stock_mcInit (pfnbuf : ℕ → BitVec 64) (t : Fin SHARE) (k : ℕ) :
    (mcInit pfnbuf).stock [] t k = 0 := by
  rw [mcInit_eq]
  rfl

theorem balanced_mcInit (pfnbuf : ℕ → BitVec 64) : Balanced (mcInit pfnbuf) [] := by
  intro t
  simp only [stock_mcInit, Nat.zero_mul, Finset.sum_const_zero]
  rw [mcInit_eq]
  simp [McPriv.taken]

/-! ## Runs -/

/-- **What the allocator takes**: after any run of a client, there are as many blocks of a share and
a size, held or freed, as the client ever held at once, and what is cut off the areas of the share
is the sum of these over all sizes. -/
theorem mc_run_peaks (pfnbuf : ℕ → BitVec 64) {ops : List McCall}
    (hops : Run.Lawful mcStep mcLegal (mcInit pfnbuf, []) ops) {m : McPriv} {live : List McBlock}
    (hrun : ops.foldlM mcStep (mcInit pfnbuf, []) = some (m, live)) :
    ∃ peak : Fin SHARE → ℕ → ℕ,
      (∀ s n, IsGreatest (Run.Values mcStep (fun st => demand st.2 s n) (mcInit pfnbuf, []) ops)
        (peak s n)) ∧
      (∀ s n, demand live s n + (m.freeHead s n).length = peak s n) ∧
      ∀ s, m.taken s = ∑ n ∈ Finset.range 128, peak s n * (n * NODE_SIZE) := by
  let P : McPriv × List McBlock → Prop := fun st =>
    Areas pfnbuf st.1 ∧ Sized st.2 ∧ Balanced st.1 st.2
  have hstart : P (mcInit pfnbuf, []) :=
    ⟨areas_mcInit pfnbuf, by simp [Sized], balanced_mcInit pfnbuf⟩
  have hstep : ∀ st op st', P st → mcLegal st op → mcStep st op = some st' →
      P st' ∧ StepCase st.1 st.2 op st'.1 st'.2 := by
    intro st op st' hst hlegal hstep
    obtain ⟨hm, hsized, hb⟩ := hst
    have hcase := mcStep_cases hm hsized hlegal hstep
    exact ⟨⟨hcase.areas hm, hcase.sized hsized, hcase.balanced hm hb⟩, hcase⟩
  have hend : P (m, live) := Run.Lawful.invariant
    (fun st op st' hst hlegal h => (hstep st op st' hst hlegal h).1) hstart hops hrun
  refine ⟨fun s n => m.stock live s n, fun s n => ?_, fun _ _ => rfl, hend.2.2⟩
  refine Run.Lawful.isGreatest (fun st => demand st.2 s n) (fun st => st.1.stock st.2 s n) P
    (fun st op st' hst hlegal h => ?_) hstart (stock_mcInit pfnbuf s n) hops hrun
  obtain ⟨hst', hcase⟩ := hstep st op st' hst hlegal h
  exact ⟨hst', hcase.stock_eq hst.1 s n⟩

theorem mc_run_peaks_alloc :
    ∃ m live, twoAreas.foldlM mcStep (mcInit fun _ => 0, []) = some (m, live) ∧
      ∃ peak : Fin SHARE → ℕ → ℕ,
      (∀ s n, IsGreatest (Run.Values mcStep (fun st => demand st.2 s n) (mcInit fun _ => 0, [])
        twoAreas) (peak s n)) ∧
      (∀ s n, demand live s n + (m.freeHead s n).length = peak s n) ∧
      ∀ s, m.taken s = ∑ n ∈ Finset.range 128, peak s n * (n * NODE_SIZE) :=
  ⟨_, _, rfl, mc_run_peaks _ lawful_twoAreas rfl⟩

end TreeBitmap
