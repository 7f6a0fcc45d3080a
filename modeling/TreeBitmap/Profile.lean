import TreeBitmap.Leftovers

/-!
# What is printed about a trie (`mm_profile`)

`mm_profile` prints the totals and then, level by level, what is in use, until it comes to a level
with no memory.  No trie has such a level above one with memory, so that no level is missed, as
long as the counters have not wrapped; `%d` prints half of their range.

The kilobytes and megabytes, which are floating-point numbers, are left out, and so is what
`mc_profile` prints after this.

## Main definitions

* `mmProfile` — the numbers that `mm_profile` prints.
* `reportOf units` — the report that there ought to be.
* `Gapless`, `MemStat.Shows.mmProfile` — **the loop does not stop too early**.
* `runs_profile` — the report before and after a trie is destroyed.
-/

namespace TreeBitmap

open LongestMatch Ledger

/-- A line that `mm_profile` prints. -/
inductive ProfileLine
  | totalMemory (bytes : ℤ)
  | totalNodes (nodes : ℤ)
  | levelMemory (i : ℕ) (bytes : ℤ)
  | levelNodes (i : ℕ) (nodes : ℤ)
  deriving DecidableEq, Repr

/-- The loop of `mm_profile`, over the levels that are left. -/
def profileLevels (ms : MemStat) : List (Fin MAX_LEVEL) → List ProfileLine
  | [] => []
  | i :: levels =>
      if ms.lmem i ≠ 0 then
        .levelMemory i (ms.lmem i).toInt :: .levelNodes i (ms.lnode i).toInt ::
          profileLevels ms levels
      else []

/-- `mm_profile`. -/
def mmProfile (m : Mm) : List ProfileLine :=
  .totalMemory m.ms.mem.toInt :: .totalNodes m.ms.node.toInt ::
    profileLevels m.ms (List.finRange MAX_LEVEL)

/-- The lines for all levels at which something is in use. -/
def reportLevels (units : ℕ → ℕ) (levels : List (Fin MAX_LEVEL)) : List ProfileLine :=
  (levels.filter fun i : Fin MAX_LEVEL => units i ≠ 0).flatMap fun i : Fin MAX_LEVEL =>
    [.levelMemory i (units i * NODE_SIZE : ℕ), .levelNodes i (units i)]

/-- The report when `units l` units are in use at level `l`. -/
def reportOf (units : ℕ → ℕ) : List ProfileLine :=
  .totalMemory (∑ l : Fin MAX_LEVEL, units l * NODE_SIZE : ℕ) ::
    .totalNodes (∑ l : Fin MAX_LEVEL, units l : ℕ) ::
    reportLevels units (List.finRange MAX_LEVEL)

/-- Above a level with something in use there is none without. -/
def Gapless (units : ℕ → ℕ) : Prop := ∀ l, units (l + 1) ≠ 0 → units l ≠ 0

section Report

variable {units : ℕ → ℕ}

theorem Gapless.of_le (h : Gapless units) {i j : ℕ} (hij : i ≤ j) (hj : units j ≠ 0) :
    units i ≠ 0 := by
  induction j, hij using Nat.le_induction with
  | base => exact hj
  | succ j _ ih => exact ih (h j hj)

theorem toInt_ofNat_of_lt {k : ℕ} (h : k < 2 ^ 31) : (BitVec.ofNat 32 k).toInt = k := by
  have hk : (BitVec.ofNat 32 k).toNat = k := by
    rw [BitVec.toNat_ofNat, Nat.mod_eq_of_lt (by omega)]
  rw [BitVec.toInt_eq_toNat_of_lt (by omega), hk]

/-- The loop comes to every level with something in use. -/
theorem profileLevels_eq {ms : MemStat} (h : ms.Shows units) (hgap : Gapless units)
    (hbound : ∀ l : Fin MAX_LEVEL, units l * NODE_SIZE < 2 ^ 31) {levels : List (Fin MAX_LEVEL)}
    (hsorted : levels.Pairwise (· < ·)) : profileLevels ms levels = reportLevels units levels := by
  induction levels with
  | nil => rfl
  | cons i levels ih =>
      obtain ⟨hle, hrest⟩ := List.pairwise_cons.mp hsorted
      have hi := hbound i
      have hlmem : ms.lmem i ≠ 0 ↔ units i ≠ 0 := by
        rw [h.lmem, ne_eq, ← BitVec.toNat_inj, BitVec.toNat_ofNat, Nat.mod_eq_of_lt (by omega)]
        simp [NODE_SIZE]
      rw [profileLevels, reportLevels]
      by_cases hzero : units i = 0
      · -- the loop stops, and nothing is in use further down
        have hnone : levels.filter (fun j : Fin MAX_LEVEL => units j ≠ 0) = [] := by
          rw [List.filter_eq_nil_iff]
          intro j hj
          have hij : (i : ℕ) ≤ j := Fin.le_def.mp (hle j hj).le
          simpa using fun hne => hgap.of_le hij hne hzero
        rw [if_neg fun hne => hlmem.mp hne hzero, List.filter_cons_of_neg (by simpa using hzero),
          hnone, List.flatMap_nil]
      · rw [if_pos (hlmem.mpr hzero), List.filter_cons_of_pos (by simpa using hzero), ih hrest,
          List.flatMap_cons, h.lmem, h.lnode, toInt_ofNat_of_lt hi,
          toInt_ofNat_of_lt (by rw [NODE_SIZE] at hi; omega)]
        rfl

/-- **`mm_profile` reports everything that is in use**, and stops just there. -/
theorem MemStat.Shows.mmProfile {m : Mm} (h : m.ms.Shows units) (hgap : Gapless units)
    (hbound : ∑ l : Fin MAX_LEVEL, units l * NODE_SIZE < 2 ^ 31) :
    mmProfile m = reportOf units := by
  have hnodes : ∑ l : Fin MAX_LEVEL, units l ≤ ∑ l : Fin MAX_LEVEL, units l * NODE_SIZE :=
    Finset.sum_le_sum fun l _ => Nat.le_mul_of_pos_right _ (by decide)
  have hlevel : ∀ l : Fin MAX_LEVEL, units l * NODE_SIZE < 2 ^ 31 := fun l =>
    (Finset.single_le_sum (fun _ _ => Nat.zero_le _) (Finset.mem_univ l)).trans_lt hbound
  rw [TreeBitmap.mmProfile, reportOf, h.mem, h.node, toInt_ofNat_of_lt hbound,
    toInt_ofNat_of_lt (hnodes.trans_lt hbound),
    profileLevels_eq h hgap hlevel (List.pairwise_lt_finRange _)]

end Report

/-! ## Tries have no gaps -/

section Gapless

variable {α : Type} [IpAddr α] [DecidableEq α] {T : Stored α}

/-- A prefix that is long enough for one string is long enough for a shorter one. -/
theorem stems_nonempty_of_le {j k : ℕ} (hjk : j ≤ k) (h : (T.stems k).Nonempty) :
    (T.stems j).Nonempty := by
  obtain ⟨t, ht⟩ := h
  obtain ⟨hlen, u, hu⟩ := mem_stored_stems_iff.mp ht
  refine ⟨t.take j, mem_stored_stems_iff.mpr ⟨?_, t.drop j ++ u, ?_⟩⟩
  · rw [List.length_take]
    omega
  · rw [← List.append_assoc, List.take_append_drop]
    exact hu

theorem gapless_stems (T : Stored α) : Gapless fun l => (T.stems (6 * (l + 1))).card := by
  intro l h
  rw [Finset.card_ne_zero] at h ⊢
  exact stems_nonempty_of_le (by omega) h

/-- A node at one depth is a unit at the depth before. -/
theorem gapless_unitsAtDepth {n : MbNode} {w : ℕ} (hn : n.Wf w) :
    Gapless fun l => n.unitsAtDepth l := by
  intro l h
  have hstem : ∀ d (c : MbNode) w, c.Wf w → c.unitsAtDepth (d + 1) ≠ 0 → c.unitsAtDepth d ≠ 0 := by
    intro d
    induction d with
    | zero =>
        intro c w hc h
        have hkids : c.children ≠ [] := by
          intro hnil
          rw [MbNode.unitsAtDepth, hnil, List.map_nil, List.sum_nil] at h
          exact h rfl
        have hpos := List.length_pos_of_ne_nil hkids
        rw [hc.layout.countKids] at hpos
        rw [MbNode.unitsAtDepth, MbNode.units, upChild]
        omega
    | succ d ih =>
        intro c w hc h
        rw [MbNode.unitsAtDepth] at h ⊢
        obtain ⟨k, hk, hne⟩ := List.exists_mem_ne_zero_of_sum_ne_zero h
        obtain ⟨e, he, rfl⟩ := List.mem_map.mp hk
        have hkid := ih e (w - 6) (hc.kids_of_mem he) hne
        intro hzero
        exact hkid (List.sum_eq_zero_iff.mp hzero _ (List.mem_map_of_mem he))
  exact hstem l n w hn h

theorem Mirrors.gapless_footprint {st : MbNode × Mm} (h : Mirrors st T) : Gapless T.footprint := by
  have heq : T.footprint = fun l => st.1.unitsAtDepth l := funext fun l => (h.unitsAtDepth l).symm
  exact heq ▸ gapless_unitsAtDepth h.wf

omit [DecidableEq α] in
theorem card_stems_le_footprint (T : Stored α) (l : ℕ) :
    (T.stems (6 * (l + 1))).card ≤ T.footprint l := Nat.le_add_right _ _

/-- What is left takes less memory than what was in use. -/
theorem bytes_le {units left : ℕ → ℕ} (h : ∀ l, left l ≤ units l)
    (hbound : ∑ l : Fin MAX_LEVEL, units l * NODE_SIZE < 2 ^ 31) :
    ∑ l : Fin MAX_LEVEL, left l * NODE_SIZE < 2 ^ 31 := by
  have hle : ∑ l : Fin MAX_LEVEL, left l * NODE_SIZE ≤ ∑ l : Fin MAX_LEVEL, units l * NODE_SIZE :=
    Finset.sum_le_sum fun l _ => Nat.mul_le_mul_right _ (h l)
  exact lt_of_le_of_lt hle hbound

theorem exists_run_profile {op : MemOp} (hop : (mmInit op).Succeeds) {ops : List (Op α)}
    (hops : (storedMachine α).Legal ∅ ops)
    (hbound : ∑ l : Fin MAX_LEVEL, ((storedMachine α).exec ∅ ops).footprint l * NODE_SIZE < 2 ^ 31)
    (d : Bool) :
    ∃ root m m' calls, ops.foldlM trieStep (.zero, mmInit op) = some (root, m) ∧
      destroySubtrie m root d 0 = some (m', calls) ∧
      mmProfile m = reportOf ((storedMachine α).exec ∅ ops).footprint ∧
      mmProfile m' =
        reportOf fun l => (((storedMachine α).exec ∅ ops).stems (6 * (l + 1))).card := by
  obtain ⟨⟨root, m⟩, lost, hrun, hmir, -, hbook⟩ := exists_booked_run hop hops
  generalize (storedMachine α).exec ∅ ops = T at hmir hbound ⊢
  obtain ⟨m', calls, hdestroy, -, hleft⟩ := hbook.leftover hmir d
  have hbytes := bytes_le (card_stems_le_footprint T) hbound
  exact ⟨root, m, m', calls, hrun, hdestroy,
    (hbook.footprint hmir).counters.mmProfile hmir.gapless_footprint hbound,
    hleft.mmProfile (gapless_stems T) hbytes⟩

end Gapless

/-- **What `mm_profile` prints**, before and after a trie is destroyed: all that the map needs,
and all that is left, level by level. -/
theorem runs_profile {op : MemOp} (hop : (mmInit op).Succeeds) (d : Bool) :
    (∀ ops, (storedMachine IpV4).Legal ∅ ops →
      ∑ l : Fin MAX_LEVEL, ((storedMachine IpV4).exec ∅ ops).footprint l * NODE_SIZE < 2 ^ 31 →
      ∃ root m m' calls, ops.foldlM bitmapStep (.zero, mmInit op) = some (root, m) ∧
        bitmapDestroyTrie root m d = some (m', calls) ∧
        mmProfile m = reportOf ((storedMachine IpV4).exec ∅ ops).footprint ∧
        mmProfile m' =
          reportOf fun l => (((storedMachine IpV4).exec ∅ ops).stems (6 * (l + 1))).card) ∧
    (∀ ops, (storedMachine IpV6).Legal ∅ ops →
      ∑ l : Fin MAX_LEVEL, ((storedMachine IpV6).exec ∅ ops).footprint l * NODE_SIZE < 2 ^ 31 →
      ∃ root m m' calls, ops.foldlM bitmapv6Step (.zero, mmInit op) = some (root, m) ∧
        bitmapv6DestroyTrie root m d = some (m', calls) ∧
        mmProfile m = reportOf ((storedMachine IpV6).exec ∅ ops).footprint ∧
        mmProfile m' =
          reportOf fun l => (((storedMachine IpV6).exec ∅ ops).stems (6 * (l + 1))).card) := by
  rw [bitmapStep_eq, bitmapv6Step_eq]
  exact ⟨fun _ hops hbound => exists_run_profile hop hops hbound d,
    fun _ hops hbound => exists_run_profile hop hops hbound d⟩

theorem runs_profile_insert :
    (∃ root m m' calls, tenOps.foldlM bitmapStep (.zero, mmInit simple) = some (root, m) ∧
      bitmapDestroyTrie root m true = some (m', calls) ∧
      mmProfile m = reportOf ((storedMachine IpV4).exec ∅ tenOps).footprint ∧
      mmProfile m' =
        reportOf fun l => (((storedMachine IpV4).exec ∅ tenOps).stems (6 * (l + 1))).card) ∧
    (∃ root m m' calls, docOps.foldlM bitmapv6Step (.zero, mmInit simple) = some (root, m) ∧
      bitmapv6DestroyTrie root m true = some (m', calls) ∧
      mmProfile m = reportOf ((storedMachine IpV6).exec ∅ docOps).footprint ∧
      mmProfile m' =
        reportOf fun l => (((storedMachine IpV6).exec ∅ docOps).stems (6 * (l + 1))).card) :=
  ⟨(runs_profile succeeds_mmInit_simple true).1 _ legal_tenOps (by decide +kernel),
    (runs_profile succeeds_mmInit_simple true).2 _ legal_docOps (by decide +kernel)⟩

end TreeBitmap
