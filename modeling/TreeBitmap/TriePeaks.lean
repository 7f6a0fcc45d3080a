import TreeBitmap.Peaks
import TreeBitmap.SlotPlacement

/-!
# What a trie takes from the page-colour allocator

The allocator keeps a freed block for requests of the same share and the same size.  What a trie
takes from it is told by the log of its calls: for each share and size, the greatest number of
blocks that were out at once.  That is not only counted between updates, since an edit asks for the
new block of a node before it gives the old one back.

## Main definitions

* `Outstanding` — how many blocks were out, at some point of a log.
* `Takes calls mc` — what a log has taken from the allocator.
* `Serves.takes`, `runs_taken` — **what the runs of a trie take**.
-/

namespace TreeBitmap

open Ledger

/-- The numbers of blocks of a share and a size that were out at some point of a log, which has its
latest call first. -/
def Outstanding (calls : List MmCall) (s : Fin SHARE) (n : ℕ) : Set ℕ :=
  {k | ∃ earlier, earlier <:+ calls ∧
    blockCount (Ledger.live (earlier.filterMap MmCall.event)) s n = k}

/-- What a log has taken from the allocator: of each share and size, the most blocks that were out
at once, and off the areas of a share the sum of these. -/
def Takes (calls : List MmCall) (mc : McPriv) : Prop :=
  ∃ peak : Fin SHARE → ℕ → ℕ,
    (∀ s n, IsGreatest (Outstanding calls s n) (peak s n)) ∧
    ∀ s, mc.taken s = ∑ n ∈ Finset.range 128, peak s n * (n * NODE_SIZE)

theorem outstanding_nil (s : Fin SHARE) (n : ℕ) : Outstanding [] s n = {0} := by
  ext k
  simp [Outstanding, blockCount, Ledger.live, eq_comm]

theorem outstanding_cons (call : MmCall) (calls : List MmCall) (s : Fin SHARE) (n : ℕ) :
    Outstanding (call :: calls) s n =
      insert (blockCount (Ledger.live ((call :: calls).filterMap MmCall.event)) s n)
        (Outstanding calls s n) := by
  ext k
  simp only [Outstanding, List.suffix_cons_iff, Set.mem_insert_iff, Set.mem_ofPred_eq]
  constructor
  · intro h
    obtain ⟨earlier, rfl | hearlier, hk⟩ := h
    · exact .inl hk.symm
    · exact .inr ⟨earlier, hearlier, hk⟩
  · intro h
    rcases h with rfl | ⟨earlier, hearlier, hk⟩
    · exact ⟨_, .inl rfl, rfl⟩
    · exact ⟨earlier, .inr hearlier, hk⟩

/-- A refused request leaves what is out. -/
theorem outstanding_refuse (calls : List MmCall) (level : ℕ) (s : Fin SHARE) (n : ℕ) :
    Outstanding (.alloc 0 level none :: calls) s n = Outstanding calls s n := by
  rw [outstanding_cons]
  exact Set.insert_eq_of_mem ⟨calls, List.suffix_refl calls, rfl⟩

/-- **What a log takes from the allocator**, if the sizes and the blocks in it are right. -/
theorem Serves.takes (pfnbuf : ℕ → BitVec 64) {m : Mm} (h : Serves (mmInit colorOp) m)
    (hdis : Disciplined m.events) : Plays pfnbuf m.calls fun mc _ => Takes m.calls mc := by
  let P : List MmCall → McPriv → List McBlock → Prop := fun calls mc held =>
    ∀ s n, IsGreatest (Outstanding calls s n) (mc.stock held s n)
  have hnil : P [] (mcInit pfnbuf) [] := by
    intro s n
    rw [outstanding_nil, stock_mcInit]
    exact isGreatest_singleton
  obtain ⟨-, hplays⟩ := h.invariant pfnbuf hnil
    (fun level hP s n => by
      rw [outstanding_refuse]
      exact hP s n)
    (fun hP hareas hcase hstands s n => by
      rw [outstanding_cons, ← hstands.demand_eq, hcase.stock_eq hareas, max_comm]
      exact (hP s n).insert _) rfl hdis
  refine hplays.mono fun mc addr hheld => ?_
  obtain ⟨held, hstands, hpeak⟩ := hheld
  exact ⟨fun s n => mc.stock held s n, hpeak, hstands.balanced⟩

section Runs

variable {α : Type} [IpAddr α] [DecidableEq α]

theorem exists_taken_run (pfnbuf : ℕ → BitVec 64) {ops : List (Op α)}
    (hops : (storedMachine α).Legal ∅ ops) :
    ∃ root m, ops.foldlM trieStep (.zero, mmInit colorOp) = some (root, m) ∧
      Plays pfnbuf m.calls fun mc _ => Takes m.calls mc := by
  obtain ⟨⟨root, m⟩, lost, hrun, -, -, hbook⟩ := exists_booked_run succeeds_mmInit_colorOp hops
  exact ⟨root, m, hrun, (Serves.run trieStep_serves hrun).takes pfnbuf hbook.sound.disciplined⟩

end Runs

/-- **What the runs of a trie take from the allocator**, as long as each area is asked for in time:
of each share and size, as many blocks as were ever out at once.  A run of the `COMPRESS_NHI` build
has to be one of harmless updates. -/
theorem runs_taken (pfnbuf : ℕ → BitVec 64) :
    (∀ ops, (storedMachine IpV4).Legal ∅ ops → ∃ root m,
      ops.foldlM bitmapStep (.zero, mmInit colorOp) = some (root, m) ∧
        Plays pfnbuf m.calls fun mc _ => Takes m.calls mc) ∧
    (∀ ops, (storedMachine IpV6).Legal ∅ ops → ∃ root m,
      ops.foldlM bitmapv6Step (.zero, mmInit colorOp) = some (root, m) ∧
        Plays pfnbuf m.calls fun mc _ => Takes m.calls mc) ∧
    (∀ ops, (storedMachine IpV4).Legal ∅ ops →
      Run.Guarded CompressNhi.bitmapStep (fun st op => CompressNhi.Harmless st.1 op)
        (.zero, mmInit colorOp) ops → ∃ root m,
      ops.foldlM CompressNhi.bitmapStep (.zero, mmInit colorOp) = some (root, m) ∧
        Plays pfnbuf m.calls fun mc _ => Takes m.calls mc) := by
  rw [bitmapStep_eq, bitmapv6Step_eq]
  refine ⟨fun _ hops => exists_taken_run pfnbuf hops, fun _ hops => exists_taken_run pfnbuf hops,
    fun ops hops hfit => ?_⟩
  obtain ⟨⟨root, m⟩, st', lost, hrun, -, hbook⟩ :=
    CompressNhi.exists_slotBooked_run succeeds_mmInit_colorOp hops hfit
  exact ⟨root, m, hrun, (Serves.run CompressNhi.bitmapStep_serves hrun).takes pfnbuf
    hbook.sound.disciplined⟩

/-- The logs of three runs, and the allocator plays them to the end. -/
theorem runs_taken_insert_delete :
    (∃ root m mc addr, tenOps.foldlM bitmapStep (.zero, mmInit colorOp) = some (root, m) ∧
      replay (fun _ => 0) m.calls = some (mc, addr) ∧ Takes m.calls mc) ∧
    (∃ root m mc addr, docOps.foldlM bitmapv6Step (.zero, mmInit colorOp) = some (root, m) ∧
      replay (fun _ => 0) m.calls = some (mc, addr) ∧ Takes m.calls mc) ∧
    (∃ root m mc addr, [Op.insert CompressNhi.upperHalf 1, .insert CompressNhi.lowerHalf 1].foldlM
        CompressNhi.bitmapStep (.zero, mmInit colorOp) = some (root, m) ∧
      replay (fun _ => 0) m.calls = some (mc, addr) ∧ Takes m.calls mc) :=
  ⟨exists_played (Q := fun _ calls mc _ => Takes calls mc)
      ((runs_taken fun _ => 0).1 _ legal_tenOps) (by decide +kernel),
    exists_played (Q := fun _ calls mc _ => Takes calls mc)
      ((runs_taken fun _ => 0).2.1 _ legal_docOps) (by decide +kernel),
    exists_played (Q := fun _ calls mc _ => Takes calls mc)
      ((runs_taken fun _ => 0).2.2 _ ⟨trivial, trivial, trivial⟩
        (CompressNhi.guarded_halves succeeds_mmInit_colorOp)) (by decide +kernel)⟩

end TreeBitmap
