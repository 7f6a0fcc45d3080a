import TreeBitmap.Accounts
import TreeBitmap.Peaks
import TreeBitmap.Refusal

/-!
# A trie over the page-colour allocator

The two halves of the library meet in `alloc_node`.  A trie knows its allocator only by the
answers it gets, and the allocator relies on its client for the sizes of the requests and
for getting back what it has handed out.  Each half has been looked at alone; here the log
of the calls that a trie makes is played to the allocator.

No edit asks for more than 87 units, whatever the node looks like, so that the allocator has a
list for every size it is asked for.  A request for no units it answers with `NULL`, and so a
trie never gets such a block and never gives one back.  Only the end of the mapping can then stop
the allocator: it plays a log just if each area that the log needs is asked for in time.

## Main definitions

* `Serves m m'` — the calls between two states of a memory manager.
* `colorOp` — the allocator, as a trie sees it; `replay` — as it is.
* `AsksInTime` — the condition on a log; `Plays` — what the allocator makes of it.
* `Stands` — what the log has come to; `Stands.grant`, `Stands.release` — one call.
* `Serves.invariant` — what the steps of the allocator keep, along a log.
* `LiesApart` — where blocks lie that are all that is out; `Settled` — the nodes of a trie.
* `runs_settled` — **the nodes of any trie lie apart, in pages of the colours of their levels**.
-/

namespace TreeBitmap

open Ranked Ledger

/-! ## The calls of an update -/

/-- `m'` is what becomes of `m` by calls, none of which asks for 128 units or more. -/
inductive Serves : Mm → Mm → Prop
  | refl (m : Mm) : Serves m m
  | alloc {m m₁ m' : Mm} {nodeNum level : ℕ} {ret : Option Ptr} (h : Serves m m₁)
      (hlt : nodeNum < 128) (hcall : allocNode m₁ nodeNum level = some (ret, m')) : Serves m m'
  | dealloc {m m₁ m' : Mm} {nodeNum level : ℕ} {p : Ptr} (h : Serves m m₁)
      (hcall : deallocNode m₁ nodeNum level p = some m') : Serves m m'

theorem Serves.trans {m m₁ m' : Mm} (h : Serves m m₁) (h' : Serves m₁ m') : Serves m m' := by
  induction h' with
  | refl => exact h
  | alloc _ hlt hcall ih => exact ih.alloc hlt hcall
  | dealloc _ hcall ih => exact ih.dealloc hcall

section Updates

variable {m m' : Mm} {n n' : MbNode} {pos level : ℕ}

theorem countChildren_le (b : Bitmap) : countChildren b ≤ 64 := by
  rw [countChildren_eq_card]
  exact (Finset.card_filter_le _ _).trans (Finset.card_range 64).le

theorem newNode_serves {mbCnt nhCnt : ℕ} {r : Region} (hmb : mbCnt ≤ 65) (hnh : nhCnt ≤ 65)
    (h : newNode m mbCnt nhCnt level = some (r, m')) : Serves m m' := by
  obtain ⟨⟨ret, m₁⟩, halloc, h⟩ := Option.bind_eq_some_iff.mp h
  have hm : m₁ = m' := by
    cases ret <;> cases h <;> rfl
  subst hm
  have hlt : upChild mbCnt + upRule nhCnt < 128 := by
    rw [upChild, upRule, NODE_SIZE]
    omega
  exact (Serves.refl m).alloc hlt halloc

theorem freeOld_serves {ruleNum childNum : ℕ}
    (h : freeOld m n ruleNum childNum level = some m') : Serves m m' := by
  rw [freeOld] at h
  split at h
  · cases h
    exact .refl m
  · exact (Serves.refl m).dealloc h

theorem edit_serves {mbCnt nhCnt ruleNum childNum : ℕ} {r : Region} {m₁ : Mm} (hmb : mbCnt ≤ 65)
    (hnh : nhCnt ≤ 65) (hnew : newNode m mbCnt nhCnt level = some (r, m₁))
    (hfree : freeOld m₁ n ruleNum childNum level = some m') : Serves m m' :=
  (newNode_serves hmb hnh hnew).trans (freeOld_serves hfree)

theorem extendRule_serves {nhi : Nhi} (h : extendRule m n pos level nhi = some (n', m')) :
    Serves m m' := by
  obtain ⟨r, m₁, hnew, -, hfree⟩ := extendRule_cases h
  have hint := countChildren_le n.internal
  have hext := countChildren_le n.external
  exact edit_serves (by omega) (by omega) hnew hfree

theorem extendChild_serves {slot : ℤ} (h : extendChild m n level pos = some (n', slot, m')) :
    Serves m m' := by
  obtain ⟨r, m₁, hnew, hfree, -⟩ := extendChild_cases h
  have hint := countChildren_le n.internal
  have hext := countChildren_le n.external
  exact edit_serves (by omega) (by omega) hnew hfree

theorem reduceChild_serves (h : reduceChild m n pos level = some (n', m')) : Serves m m' := by
  obtain ⟨-, -, h⟩ := Option.bind_eq_some_iff.mp h
  obtain ⟨⟨r, m₁⟩, hnew, h⟩ := Option.bind_eq_some_iff.mp h
  obtain ⟨rules, -, h⟩ := Option.bind_eq_some_iff.mp h
  obtain ⟨children, -, h⟩ := Option.bind_eq_some_iff.mp h
  obtain ⟨m₂, hfree, h⟩ := Option.bind_eq_some_iff.mp h
  cases h
  have hint := countChildren_le n.internal
  have hext := countChildren_le n.external
  exact edit_serves (by omega) (by omega) hnew hfree

theorem reduceRule_serves (h : reduceRule m n pos level = some (n', m')) : Serves m m' := by
  rw [reduceRule] at h
  split at h
  · cases h
    exact .refl m
  · obtain ⟨⟨r, m₁⟩, hnew, h⟩ := Option.bind_eq_some_iff.mp h
    obtain ⟨children, -, h⟩ := Option.bind_eq_some_iff.mp h
    obtain ⟨rules, -, h⟩ := Option.bind_eq_some_iff.mp h
    obtain ⟨m₂, hfree, h⟩ := Option.bind_eq_some_iff.mp h
    cases h
    have hint := countChildren_le n.internal
    have hext := countChildren_le n.external
    exact edit_serves (by omega) (by omega) hnew hfree

variable {α : Type} [IpAddr α]

theorem insertPrefix_serves {nhi : Nhi} {ret : ℤ} {ip : α} {cidr : ℕ}
    (h : insertPrefix m n ip cidr level nhi = some (n', m', ret)) : Serves m m' := by
  induction cidr using Nat.strong_induction_on generalizing m n n' ip level with
  | _ cidr ih =>
      by_cases hlt : cidr < STRIDE
      · rw [insertPrefix, if_pos hlt] at h
        by_cases htest : testBitmap n.internal (leafPos ip cidr) = true
        · rw [if_pos htest] at h
          obtain ⟨n₁, -, h⟩ := Option.bind_eq_some_iff.mp h
          cases h
          exact .refl _
        · rw [if_neg htest] at h
          obtain ⟨⟨n₁, m₁⟩, hext, h⟩ := Option.bind_eq_some_iff.mp h
          cases h
          exact extendRule_serves hext
      · have hsub : cidr - STRIDE < cidr := by
          rw [STRIDE_eq] at *
          omega
        obtain ⟨n₁, slot, m₁, c, c', henter, -, hrec⟩ := insertPrefix_cases hlt h
        refine Serves.trans ?_ (ih _ hsub hrec)
        split at henter
        · cases henter
          exact .refl m
        · exact extendChild_serves henter

theorem updateParents_serves {c : MbNode} {del ret : Bool} {trace : List (MbNode × ℕ)}
    (h : updateParents m c del trace = some (n', m', ret)) : Serves m m' := by
  induction trace generalizing m c del with
  | nil =>
      cases h
      exact .refl _
  | cons frame trace ih =>
      obtain ⟨n, pos⟩ := frame
      obtain ⟨n₁, -, h⟩ := Option.bind_eq_some_iff.mp h
      obtain ⟨⟨n₂, m₁⟩, hred, h⟩ := Option.bind_eq_some_iff.mp h
      refine Serves.trans ?_ (ih h)
      cases del with
      | true => exact reduceChild_serves hred
      | false =>
          cases hred
          exact .refl m

theorem deletePrefix_serves {ip : α} {cidr : ℕ} {d ret : Bool} {calls : List Nhi}
    (h : deletePrefix m n ip cidr d = some (n', m', ret, calls)) : Serves m m' := by
  obtain ⟨trace, -, h⟩ := Option.bind_eq_some_iff.mp h
  obtain ⟨⟨last, pos⟩, hhead, h⟩ := Option.bind_eq_some_iff.mp h
  obtain ⟨calls', -, h⟩ := Option.bind_eq_some_iff.mp h
  obtain ⟨⟨n₂, m₂, ret'⟩, hupdate, h⟩ := Option.bind_eq_some_iff.mp h
  cases h
  cases trace with
  | nil => cases hhead
  | cons frame trace =>
      obtain ⟨⟨n₁, m₁⟩, hred, hparents⟩ := Option.bind_eq_some_iff.mp hupdate
      exact (reduceRule_serves hred).trans (updateParents_serves hparents)

theorem trieStep_serves {st st' : MbNode × Mm} {op : Op α} (h : trieStep st op = some st') :
    Serves st.2 st'.2 := by
  cases op with
  | insert p nhi =>
      obtain ⟨⟨root, m, ret⟩, hins, h⟩ := Option.bind_eq_some_iff.mp h
      cases h
      exact insertPrefix_serves hins
  | delete p d =>
      obtain ⟨⟨root, m, ret, calls⟩, hdel, h⟩ := Option.bind_eq_some_iff.mp h
      cases h
      exact deletePrefix_serves hdel

/-- The calls of a run. -/
theorem Serves.run {ι : Type*} {step : MbNode × Mm → ι → Option (MbNode × Mm)}
    (hstep : ∀ {st op st'}, step st op = some st' → Serves st.2 st'.2) {st st' : MbNode × Mm}
    {ops : List ι} (h : ops.foldlM step st = some st') : Serves st.2 st'.2 := by
  induction ops generalizing st with
  | nil =>
      cases h
      exact .refl _
  | cons op ops ih =>
      rw [List.foldlM_cons] at h
      obtain ⟨st₁, hop, h⟩ := Option.bind_eq_some_iff.mp h
      exact (hstep hop).trans (ih h)

end Updates

/-! ## The calls, played to the allocator -/

/-- `MEM_ALLOC_COLOR`, as a trie sees it: only a request for no units is refused. -/
def colorOp : MemOp := fun _ nodeNum _ => decide (0 < nodeNum)

theorem succeeds_mmInit_colorOp : (mmInit colorOp).Succeeds := fun _ _ _ h => decide_eq_true h

/-- The allocator after these calls, latest first, and the addresses of the blocks that it has
handed out, by their numbers.  `malloc` does not fail.  `none` is a fault, an access outside
`pfnbuf` or the mapping, an answer other than the one in the log, or a block that comes back
though it is not out, with another size, or by another pointer than its base. -/
def replay (pfnbuf : ℕ → BitVec 64) : List MmCall → Option (McPriv × (ℕ → Option ℕ))
  | [] => some (mcInit pfnbuf, fun _ => none)
  | .alloc nodeNum level ret :: calls => do
      let (mc, addr) ← replay pfnbuf calls
      let (p, mc) ← mcAllocNode mc nodeNum level true
      -- `pfnbuf` has an entry for each huge page of the mapping
      guard (∀ i ∈ mc.pfnReads, i < MEMORY_SIZE / HPAGE_SIZE)
      match p, ret with
      | some p, some q => do
          -- the block is set to 0
          guard (p + nodeNum * NODE_SIZE ≤ MEMORY_SIZE)
          some (mc, Function.update addr q.blk (some p))
      | none, none => some (mc, addr)
      | _, _ => none
  | .dealloc nodeNum level q :: calls => do
      let (mc, addr) ← replay pfnbuf calls
      guard (⟨q, nodeNum, level⟩ ∈ Ledger.live (calls.filterMap MmCall.event) ∧ q.off = 0)
      let p ← addr q.blk
      let mc ← mcDeallocNode mc nodeNum level p true
      some (mc, addr)

/-- If a request for `nodeNum` units needs a new area, then the last area of the share ends more
than a window before the end of the mapping. -/
def McPriv.InTime (mc : McPriv) (nodeNum level : ℕ) : Prop :=
  mc.NeedsArea (shareOf level) nodeNum → ∀ last, (mc.lm (shareOf level)).getLast? = some last →
    last.start + CACHE_OVERLAP + (mc.cs (shareOf level)).size < MEMORY_SIZE

/-- Every area that the calls need is asked for in time. -/
def AsksInTime (pfnbuf : ℕ → BitVec 64) : List MmCall → Prop
  | [] => True
  | .alloc nodeNum level _ :: calls => AsksInTime pfnbuf calls ∧
      ∀ mc addr, replay pfnbuf calls = some (mc, addr) → 0 < nodeNum → mc.InTime nodeNum level
  | .dealloc _ _ _ :: calls => AsksInTime pfnbuf calls

/-- What the allocator makes of a log. -/
structure Plays (pfnbuf : ℕ → BitVec 64) (calls : List MmCall)
    (Q : McPriv → (ℕ → Option ℕ) → Prop) : Prop where
  /-- It plays the log just if the areas are asked for in time. -/
  isSome_iff : (replay pfnbuf calls).isSome ↔ AsksInTime pfnbuf calls
  /-- What then holds of it. -/
  after : ∀ mc addr, replay pfnbuf calls = some (mc, addr) → Q mc addr

/-- A block of a trie, as the allocator knows it. -/
def Block.placed (addr : ℕ → Option ℕ) (b : Block) : McBlock :=
  ⟨(addr b.base.blk).getD 0, b.units, b.level⟩

/-- The blocks of a size, at the levels of a share. -/
def blockCount (blocks : Multiset Block) (s : Fin SHARE) (n : ℕ) : ℕ :=
  blocks.countP fun b => shareOf b.level = s ∧ b.units = n

/-- What a log has come to: the allocator's client holds what the ledger says is outstanding. -/
structure Stands (pfnbuf : ℕ → BitVec 64) (calls : List MmCall) (mc : McPriv)
    (addr : ℕ → Option ℕ) (held : List McBlock) : Prop where
  replay : replay pfnbuf calls = some (mc, addr)
  inTime : AsksInTime pfnbuf calls
  holding : ∃ blocks, Holding pfnbuf mc held blocks
  inside : Inside mc
  balanced : Balanced mc held
  held : (held : Multiset McBlock) =
    (Ledger.live (calls.filterMap MmCall.event)).map (Block.placed addr)
  base : ∀ b ∈ Ledger.live (calls.filterMap MmCall.event),
    b.base.off = 0 ∧ b.base.blk < calls.length ∧ (addr b.base.blk).isSome

section Replay

variable {pfnbuf : ℕ → BitVec 64} {calls : List MmCall} {mc : McPriv} {addr : ℕ → Option ℕ}
  {held : List McBlock} {Q Q' : McPriv → (ℕ → Option ℕ) → Prop}

/-- A run whose log is played. -/
theorem exists_played {run : Option (MbNode × Mm)}
    {Q : MbNode → List MmCall → McPriv → (ℕ → Option ℕ) → Prop}
    (h : ∃ root m, run = some (root, m) ∧ Plays pfnbuf m.calls (Q root m.calls))
    (hplayed : (run.bind fun st => TreeBitmap.replay pfnbuf st.2.calls).isSome) :
    ∃ root m mc addr, run = some (root, m) ∧
      TreeBitmap.replay pfnbuf m.calls = some (mc, addr) ∧ Q root m.calls mc addr := by
  obtain ⟨root, m, hrun, hplays⟩ := h
  rw [hrun, Option.bind_some] at hplayed
  obtain ⟨⟨mc, addr⟩, hreplay⟩ := Option.isSome_iff_exists.mp hplayed
  exact ⟨root, m, mc, addr, hrun, hreplay, hplays.after mc addr hreplay⟩

theorem Plays.mono (h : Plays pfnbuf calls Q) (hQ : ∀ mc addr, Q mc addr → Q' mc addr) :
    Plays pfnbuf calls Q' :=
  ⟨h.isSome_iff, fun mc addr hreplay => hQ mc addr (h.after mc addr hreplay)⟩

/-- Too late is too late. -/
theorem plays_of_late (hreplay : TreeBitmap.replay pfnbuf calls = none)
    (hlate : ¬ AsksInTime pfnbuf calls) : Plays pfnbuf calls Q := by
  refine ⟨iff_of_false (fun h => ?_) hlate, fun mc addr hmc => ?_⟩
  · rw [hreplay] at h
    cases h
  · rw [hreplay] at hmc
    cases hmc

theorem Plays.cons_late (h : Plays pfnbuf calls Q) (hreplay : TreeBitmap.replay pfnbuf calls = none)
    (call : MmCall) : Plays pfnbuf (call :: calls) Q' := by
  have hlate : ¬ AsksInTime pfnbuf calls := by
    rw [← h.isSome_iff, hreplay]
    exact Bool.false_ne_true
  cases call with
  | alloc nodeNum level ret =>
      refine plays_of_late ?_ fun hin => hlate hin.1
      rw [TreeBitmap.replay, hreplay]
      rfl
  | dealloc nodeNum level q =>
      refine plays_of_late ?_ hlate
      rw [TreeBitmap.replay, hreplay]
      rfl

theorem Stands.plays (h : Stands pfnbuf calls mc addr held) (hQ : Q mc addr) :
    Plays pfnbuf calls Q := by
  refine ⟨iff_of_true (h.replay ▸ rfl) h.inTime, fun mc' addr' hmc => ?_⟩
  rw [h.replay] at hmc
  cases hmc
  exact hQ

theorem stands_nil (pfnbuf : ℕ → BitVec 64) :
    Stands pfnbuf [] (mcInit pfnbuf) (fun _ => none) [] where
  replay := rfl
  inTime := trivial
  holding := ⟨∅, holding_mcInit pfnbuf⟩
  inside := inside_mcInit pfnbuf
  balanced := balanced_mcInit pfnbuf
  held := rfl
  base := by simp [Ledger.live]

/-- The client of the allocator holds what is out. -/
theorem Stands.demand_eq (h : Stands pfnbuf calls mc addr held) (s : Fin SHARE) (n : ℕ) :
    demand held s n = blockCount (Ledger.live (calls.filterMap MmCall.event)) s n := by
  rw [demand, ← Multiset.coe_countP, h.held, Multiset.countP_map, blockCount,
    Multiset.countP_eq_card_filter]
  exact congrArg Multiset.card (Multiset.filter_congr fun b _ => Iff.rfl)

/-- A request for no units changes nothing. -/
theorem Stands.refuse (h : Stands pfnbuf calls mc addr held) (level : ℕ) :
    Stands pfnbuf (.alloc 0 level none :: calls) mc addr held where
  replay := by
    have hnull : mcAllocNode mc 0 level true = some (none, mc) := rfl
    simp only [TreeBitmap.replay, h.replay, Option.bind_eq_bind, Option.bind_some, hnull, guard,
      if_pos h.inside.reads, Option.pure_def]
  inTime := ⟨h.inTime, fun _ _ _ hpos => absurd hpos (lt_irrefl 0)⟩
  holding := h.holding
  inside := h.inside
  balanced := h.balanced
  held := h.held
  base := fun b hb => by
    obtain ⟨hoff, hlt, hsome⟩ := h.base b hb
    exact ⟨hoff, Nat.lt_succ_of_lt hlt, hsome⟩

/-- A request that the allocator has a list for is answered, if it comes in time. -/
theorem Stands.grant (h : Stands pfnbuf calls mc addr held) {nodeNum level : ℕ}
    (hpos : 0 < nodeNum) (hlt : nodeNum < 128) (htime : mc.InTime nodeNum level) :
    ∃ mc' addr' held' op,
      Stands pfnbuf (.alloc nodeNum level (some ⟨calls.length, 0⟩) :: calls) mc' addr' held' ∧
        StepCase mc held op mc' held' := by
  obtain ⟨blocks, hhold⟩ := h.holding
  obtain ⟨ret, mc', halloc, hcase⟩ := mcAllocNode_spec hhold.areas hpos hlt level true
  obtain ⟨p, rfl⟩ : ∃ p, ret = some p := by
    cases hcase with
    | recycled _ => exact ⟨_, rfl⟩
    | carved _ _ _ => exact ⟨_, rfl⟩
    | grown _ _ _ _ _ _ => exact ⟨_, rfl⟩
    | refused _ _ hmalloc => cases hmalloc
  have hop : StepCase mc held _ _ _ := .alloc hpos hlt hcase
  obtain ⟨hiff, hkeep⟩ : (CallInside mc nodeNum level (some p) mc' ↔ _) ∧ _ :=
    callInside_iff hhold h.inside hcase hlt
  have hcall := hiff.mpr fun _ => htime
  -- the new number is not the number of a block that is still out
  have hold : ∀ b ∈ Ledger.live (calls.filterMap MmCall.event),
      b.placed (Function.update addr calls.length (some p)) = b.placed addr := by
    intro b hb
    have hne : b.base.blk ≠ calls.length := (h.base b hb).2.1.ne
    rw [Block.placed, Block.placed, Function.update_of_ne hne]
  refine ⟨mc', Function.update addr calls.length (some p), ⟨p, nodeNum, level⟩ :: held, _,
    ⟨?_, ⟨h.inTime, fun mc₁ addr₁ hmc _ => ?_⟩, hhold.step hop, hkeep fun _ => htime,
      hop.balanced hhold.areas h.balanced, ?_, ?_⟩, hop⟩
  · simp only [TreeBitmap.replay, h.replay, Option.bind_eq_bind, Option.bind_some, halloc, guard,
      if_pos hcall.reads, if_pos (hcall.block p rfl), Option.pure_def]
  · rw [h.replay] at hmc
    cases hmc
    exact htime
  · change _ = Multiset.map _ (_ ::ₘ _)
    rw [Multiset.map_cons, Multiset.map_congr rfl hold, ← h.held, ← Multiset.cons_coe,
      Block.placed, Function.update_self]
    rfl
  · intro b hb
    rcases Multiset.mem_cons.mp hb with rfl | hb
    · exact ⟨rfl, Nat.lt_succ_self _, by rw [Function.update_self]; rfl⟩
    · obtain ⟨hoff, hlt', hsome⟩ := h.base b hb
      refine ⟨hoff, Nat.lt_succ_of_lt hlt', ?_⟩
      rwa [Function.update_of_ne hlt'.ne]

/-- A request that comes too late is not. -/
theorem Stands.late (h : Stands pfnbuf calls mc addr held) {nodeNum level : ℕ}
    (hpos : 0 < nodeNum) (hlt : nodeNum < 128) (hlate : ¬ mc.InTime nodeNum level)
    (ret : Option Ptr) : Plays pfnbuf (.alloc nodeNum level ret :: calls) Q := by
  obtain ⟨blocks, hhold⟩ := h.holding
  obtain ⟨p, mc', halloc, hcase⟩ := mcAllocNode_spec hhold.areas hpos hlt level true
  have hasks : ¬ AsksInside (mc, held) (.alloc nodeNum level true) (mc', held) :=
    fun hasks => hlate (hasks rfl)
  obtain ⟨i, hi, hout⟩ := exists_read_of_late hhold.areas h.inside hcase hasks
  refine plays_of_late ?_ fun hin => hlate (hin.2 mc addr h.replay hpos)
  have hreads : ¬ ∀ i ∈ mc'.pfnReads, i < MEMORY_SIZE / HPAGE_SIZE := fun hall => hout (hall i hi)
  simp only [TreeBitmap.replay, h.replay, Option.bind_eq_bind, Option.bind_some, halloc, guard,
    if_neg hreads]
  rfl

/-- A block that is outstanding is taken back. -/
theorem Stands.release (h : Stands pfnbuf calls mc addr held) {b : Block}
    (hb : b ∈ Ledger.live (calls.filterMap MmCall.event)) :
    ∃ mc' held' op, Stands pfnbuf (.dealloc b.units b.level b.base :: calls) mc' addr held' ∧
      StepCase mc held op mc' held' := by
  obtain ⟨blocks, hhold⟩ := h.holding
  obtain ⟨hoff, hlt, hsome⟩ := h.base b hb
  obtain ⟨p, hp⟩ := Option.isSome_iff_exists.mp hsome
  have hplaced : b.placed addr = ⟨p, b.units, b.level⟩ := by rw [Block.placed, hp, Option.getD_some]
  have hmem : b.placed addr ∈ held := by
    rw [← Multiset.mem_coe, h.held]
    exact Multiset.mem_map_of_mem _ hb
  have hunits : b.units < 128 := by
    have hsized := hhold.sized _ hmem
    rw [hplaced] at hsized
    exact hsized.2
  have hop : StepCase mc held _ _ _ := .dealloc hmem
  refine ⟨_, held.erase (b.placed addr), _, ⟨?_, h.inTime, hhold.step hop,
    ⟨h.inside.areas, h.inside.reads⟩, hop.balanced hhold.areas h.balanced, ?_, ?_⟩, hop⟩
  · have hout : b ∈ Ledger.live (calls.filterMap MmCall.event) ∧ b.base.off = 0 := ⟨hb, hoff⟩
    simp only [TreeBitmap.replay, h.replay, guard, if_pos hout, hp, Option.pure_def,
      Option.bind_eq_bind, Option.bind_some, mcDeallocNode_eq hunits, hplaced]
  · change _ = Multiset.map _ (Multiset.erase _ b)
    rw [← Multiset.coe_erase, h.held]
    conv_lhs => rw [← Multiset.cons_erase hb, Multiset.map_cons, Multiset.erase_cons_head]
  · intro c hc
    obtain ⟨hoff', hlt', hsome'⟩ := h.base c (Multiset.mem_of_mem_erase hc)
    exact ⟨hoff', Nat.lt_succ_of_lt hlt', hsome'⟩

/-- **The allocator can play the whole log**, if what comes back was outstanding and the areas are
asked for in time.  What its steps keep, along with the log, holds at the end. -/
theorem Serves.invariant (pfnbuf : ℕ → BitVec 64) {P : List MmCall → McPriv → List McBlock → Prop}
    (hnil : P [] (mcInit pfnbuf) [])
    (hrefuse : ∀ {calls mc held} level, P calls mc held → P (.alloc 0 level none :: calls) mc held)
    (hstep : ∀ {calls call mc mc' addr' held held' op}, P calls mc held → Areas pfnbuf mc →
      StepCase mc held op mc' held' → Stands pfnbuf (call :: calls) mc' addr' held' →
      P (call :: calls) mc' held')
    {m m' : Mm} (h : Serves m m') (hm : m = mmInit colorOp) (hdis : Disciplined m'.events) :
    m'.op = colorOp ∧ Plays pfnbuf m'.calls fun mc addr =>
      ∃ held, Stands pfnbuf m'.calls mc addr held ∧ P m'.calls mc held := by
  induction h with
  | refl =>
      subst hm
      exact ⟨rfl, (stands_nil pfnbuf).plays ⟨_, stands_nil pfnbuf, hnil⟩⟩
  | @alloc m₁ m' nodeNum level ret h hlt hcall ih =>
      rw [allocNode] at hcall
      split at hcall
      · cases hcall
        rw [events_cons] at hdis
        obtain ⟨hop, hplays⟩ := ih hdis.of_append
        refine ⟨hop, ?_⟩
        rcases hreplay : replay pfnbuf m₁.calls with _ | ⟨mc, addr⟩
        · exact hplays.cons_late hreplay _
        obtain ⟨held, hstands, hP⟩ := hplays.after mc addr hreplay
        rcases Nat.eq_zero_or_pos nodeNum with rfl | hpos
        · rw [hop]
          have hstands' := hstands.refuse level
          exact hstands'.plays ⟨held, hstands', hrefuse level hP⟩
        · have hans : colorOp m₁.calls nodeNum level = true := decide_eq_true hpos
          rw [hop, if_pos hans]
          by_cases htime : mc.InTime nodeNum level
          · obtain ⟨blocks, hhold⟩ := hstands.holding
            obtain ⟨mc', addr', held', op, hstands', hcase⟩ := hstands.grant hpos hlt htime
            exact hstands'.plays ⟨held', hstands', hstep hP hhold.areas hcase hstands'⟩
          · exact hstands.late hpos hlt htime _
      · cases hcall
  | @dealloc m₁ m' nodeNum level p h hcall ih =>
      rw [deallocNode] at hcall
      split at hcall
      · cases hcall
        rw [events_cons] at hdis
        obtain ⟨hop, hplays⟩ := ih hdis.of_append
        refine ⟨hop, ?_⟩
        rcases hreplay : replay pfnbuf m₁.calls with _ | ⟨mc, addr⟩
        · exact hplays.cons_late hreplay _
        obtain ⟨held, hstands, hP⟩ := hplays.after mc addr hreplay
        obtain ⟨blocks, hhold⟩ := hstands.holding
        obtain ⟨mc', held', op, hstands', hcase⟩ := hstands.release hdis.1
        exact hstands'.plays ⟨held', hstands', hstep hP hhold.areas hcase hstands'⟩
      · cases hcall

theorem Serves.stands (pfnbuf : ℕ → BitVec 64) {m : Mm} (h : Serves (mmInit colorOp) m)
    (hdis : Disciplined m.events) :
    Plays pfnbuf m.calls fun mc addr => ∃ held, Stands pfnbuf m.calls mc addr held := by
  obtain ⟨-, hplays⟩ := h.invariant pfnbuf (P := fun _ _ _ => True) trivial
    (fun _ _ => trivial) (fun _ _ _ _ => trivial) rfl hdis
  exact hplays.mono fun _ _ hstands => hstands.imp fun _ h => h.1

-- two blocks of 127 units do not fit in the one page of an area, and the second gets a new area
example : (replay (fun _ => 0) [.alloc 127 2 (some ⟨1, 0⟩), .alloc 127 2 (some ⟨0, 0⟩)]).map
    (fun st => (st.2 0, st.2 1)) = some (some 28672, some 61440) := by
  decide

end Replay

/-! ## Where the nodes lie -/

/-- The block reaches into page `k` of huge page `h`. -/
def McBlock.Touches (b : McBlock) (h k : ℕ) : Prop :=
  k < HPAGE_SIZE / PAGE_SIZE ∧ b.p < h * HPAGE_SIZE + (k + 1) * PAGE_SIZE ∧
    h * HPAGE_SIZE + k * PAGE_SIZE < b.p + b.nodeNum * NODE_SIZE

/-- Where blocks lie that are all that is out after these calls. -/
structure LiesApart (pfnbuf : ℕ → BitVec 64) (blocks : Multiset Block) (calls : List MmCall)
    (mc : McPriv) (addr : ℕ → Option ℕ) : Prop where
  /-- Each block is inside an area of the share of its level, and that is inside the mapping. -/
  inside : ∀ b ∈ blocks, (addr b.base.blk).isSome ∧
    ∃ a ∈ mc.lm (shareOf b.level), a.start ≤ (b.placed addr).p ∧
      (b.placed addr).p + b.units * NODE_SIZE ≤ a.start + (mc.cs (shareOf b.level)).size ∧
      a.start + (mc.cs (shareOf b.level)).size ≤ MEMORY_SIZE
  /-- No block is there twice, and no two of them overlap. -/
  apart : blocks.Nodup ∧ ∀ b ∈ blocks, ∀ c ∈ blocks, b ≠ c →
    (b.placed addr).range.Apart (c.placed addr).range
  /-- Blocks whose levels have different shares never lie in pages of the same colour. -/
  colors : ∀ b ∈ blocks, ∀ c ∈ blocks, shareOf b.level ≠ shareOf c.level →
    ∀ h k h' k', (b.placed addr).Touches h k → (c.placed addr).Touches h' k' →
      color pfnbuf h k ≠ color pfnbuf h' k'
  /-- Nothing else is out: these are the blocks that were handed out and have not come back. -/
  only : Ledger.live (calls.filterMap MmCall.event) = blocks
  /-- What is cut off the areas of a share is these blocks, and the freed ones. -/
  taken : ∀ s, mc.taken s = ∑ n ∈ Finset.range 128,
    (blockCount blocks s n + (mc.freeHead s n).length) * (n * NODE_SIZE)

section Settle

variable {pfnbuf : ℕ → BitVec 64} {α : Type} [IpAddr α] [DecidableEq α]

/-- A page that a block reaches into has a colour of the share. -/
theorem McBlock.Touches.mem_colors {b : McBlock} {mc : McPriv} {s : Fin SHARE} {a : LmArea}
    {h k : ℕ}
    (htouch : b.Touches h k) (hm : Colored pfnbuf mc) (ha : a ∈ mc.lm s) (hlow : a.start ≤ b.p)
    (hhigh : b.p + b.nodeNum * NODE_SIZE ≤ a.start + (mc.cs s).size) :
    color pfnbuf h k ∈ mc.colors s := by
  obtain ⟨hk, hfirst, hlast⟩ := htouch
  exact hm.colors s a ha h k hk (hlow.trans_lt hfirst) (hlast.trans_le hhigh)

theorem Stands.liesApart {m : Mm} {blocks lost : Multiset Block} {mc : McPriv}
    {addr : ℕ → Option ℕ} {held : List McBlock} (h : Stands pfnbuf m.calls mc addr held)
    (hsound : m.Sound) (hlive : m.live = blocks + lost) (hunits : ∀ b ∈ lost, b.units = 0) :
    LiesApart pfnbuf blocks m.calls mc addr := by
  obtain ⟨ranges, hhold⟩ := h.holding
  have hlive : Ledger.live (m.calls.filterMap MmCall.event) = blocks + lost := hlive
  have hplaced : ∀ b ∈ blocks + lost, b.placed addr ∈ held := by
    intro b hb
    rw [← Multiset.mem_coe, h.held, hlive]
    exact Multiset.mem_map_of_mem _ hb
  -- the allocator has no blocks of no units, so that none has got lost
  have hlost : lost = 0 := by
    refine Multiset.eq_zero_of_forall_notMem fun b hb => ?_
    have hpos := (hhold.sized _ (hplaced b (Multiset.mem_add.mpr (.inr hb)))).1
    have hzero := hunits b hb
    rw [Block.placed, hzero] at hpos
    exact Nat.not_succ_le_zero 0 hpos
  rw [hlost, add_zero] at hlive hplaced
  have hheld : (held : Multiset McBlock) = blocks.map (Block.placed addr) := by
    rw [h.held, hlive]
  have hapart := hhold.liveApart
  refine ⟨fun b hb => ⟨(h.base b (hlive ▸ hb)).2.2, ?_⟩, ⟨?_, ?_⟩, ?_, hlive, fun s => ?_⟩
  · obtain ⟨a, ha, hlow, hhigh⟩ := hapart.inside _ (hplaced b hb)
    have hend := h.inside.areas _ a ha
    rw [hhold.areas.cs] at hhigh ⊢
    exact ⟨a, ha, hlow, hhigh, hend⟩
  · have hnodup := hsound.nodup
    rw [Mm.live, Mm.events, hlive] at hnodup
    exact hnodup.of_map _
  · intro b hb c hc hbc
    -- the two are two entries of the list that the client holds
    obtain ⟨s, hs⟩ := Multiset.exists_cons_of_mem hb
    rw [hs] at hc
    obtain ⟨t, ht⟩ := Multiset.exists_cons_of_mem ((Multiset.mem_cons.mp hc).resolve_left hbc.symm)
    have hperm :
        held.Perm (b.placed addr :: c.placed addr :: (t.map (Block.placed addr)).toList) := by
      rw [← Multiset.coe_eq_coe, hheld, hs, ht]
      simp [← Multiset.cons_coe]
    have hsymm : ∀ {x y : McBlock}, x.range.Apart y.range → y.range.Apart x.range :=
      fun h => h.symm
    have hpair := (hperm.pairwise_iff hsymm).mp hapart.apart
    exact (List.pairwise_cons.mp hpair).1 _ List.mem_cons_self
  · intro b hb c hc hshare g k g' k' hg hg' heq
    have hcolored := hhold.areas.colored
    obtain ⟨a, ha, hlow, hhigh⟩ := hapart.inside _ (hplaced b hb)
    obtain ⟨a', ha', hlow', hhigh'⟩ := hapart.inside _ (hplaced c hc)
    have hmem := hg.mem_colors hcolored ha hlow hhigh
    have hmem' := hg'.mem_colors hcolored ha' hlow' hhigh'
    rw [← heq] at hmem'
    exact Finset.disjoint_left.mp (hcolored.disjoint _ _ hshare) hmem hmem'
  · rw [h.balanced s]
    exact Finset.sum_congr rfl fun n _ => by rw [McPriv.stock, h.demand_eq, hlive]

end Settle

end TreeBitmap
