import TreeBitmap.Lib.Ledger
import Mathlib.Algebra.BigOperators.Fin
import Mathlib.Data.BitVec
import Mathlib.Data.Int.Notation
import Mathlib.Tactic.Ring

/-!
# The memory manager (`lib/mm.c`)

Every block of a trie comes from `alloc_node` and goes back through
`dealloc_node`.  Both keep the byte and unit counters of `struct mem_stat`, in
total and for each level, and pass the request on to the allocator installed in
`m->op`.

A pointer is a block number and an offset in units of `sizeof(struct mb_node)`, so
that the pointer arithmetic by which the trie recovers the base of a block is part
of the model.  The allocator itself is reduced to what a caller can see of it: it
answers a request with `NULL` or with a block number never used before.  The
calls made so far are kept in order, because "which block was handed out for which
count at which level" is what the results on its accounts are about.

## Main definitions

* `Ptr`, `MemStat`, `MmCall`, `Mm` — pointers, counters, the call log, the manager.
* `mmInit`, `allocNode`, `deallocNode` — the entry points.
* `simple` — the default allocator: `calloc`, which never fails here.
-/

namespace TreeBitmap

open Ledger

/-- `sizeof(struct mb_node)`: two 64-bit bitmaps and a pointer. -/
def NODE_SIZE : ℕ := 24

/-- The length of the per-level counter arrays. -/
def MAX_LEVEL : ℕ := 32

/-- A non-`NULL` pointer to unit `off` of block number `blk`. -/
structure Ptr where
  blk : ℕ
  off : ℤ
  deriving DecidableEq, Repr

/-- `POINT(p) - units`. -/
def Ptr.sub (p : Ptr) (units : ℕ) : Ptr := { p with off := p.off - units }

/-- `struct mem_stat`: `uint32_t` counters. -/
structure MemStat where
  mem : BitVec 32
  node : BitVec 32
  lmem : Fin MAX_LEVEL → BitVec 32
  lnode : Fin MAX_LEVEL → BitVec 32

/-- All counters zero. -/
def MemStat.zero : MemStat := ⟨0, 0, fun _ => 0, fun _ => 0⟩

/-- A call of `alloc_node` with its answer, or of `dealloc_node`. -/
inductive MmCall
  | alloc (nodeNum level : ℕ) (ret : Option Ptr)
  | dealloc (nodeNum level : ℕ) (p : Ptr)
  deriving DecidableEq, Repr

/-- The allocator behind `m->op->alloc_node`: after these calls, does a request
for this many units at this level get a block, or `NULL`? -/
abbrev MemOp := List MmCall → ℕ → ℕ → Bool

/-- `alloc_simple`: `calloc` answers every request, also one for no units. -/
def simple : MemOp := fun _ _ _ => true

/-- `struct mm`, with the calls made so far, latest first. -/
structure Mm where
  ms : MemStat
  op : MemOp
  calls : List MmCall

/-- `mm_init`. -/
def mmInit (op : MemOp) : Mm := ⟨.zero, op, []⟩

/-- Count `nodeNum` units in at level `l`. -/
def MemStat.charge (ms : MemStat) (nodeNum : ℕ) (l : Fin MAX_LEVEL) : MemStat :=
  { mem := ms.mem + BitVec.ofNat 32 (nodeNum * NODE_SIZE)
    node := ms.node + BitVec.ofNat 32 nodeNum
    lmem := Function.update ms.lmem l (ms.lmem l + BitVec.ofNat 32 (nodeNum * NODE_SIZE))
    lnode := Function.update ms.lnode l (ms.lnode l + BitVec.ofNat 32 nodeNum) }

/-- Count `nodeNum` units out at level `l`. -/
def MemStat.refund (ms : MemStat) (nodeNum : ℕ) (l : Fin MAX_LEVEL) : MemStat :=
  { mem := ms.mem - BitVec.ofNat 32 (nodeNum * NODE_SIZE)
    node := ms.node - BitVec.ofNat 32 nodeNum
    lmem := Function.update ms.lmem l (ms.lmem l - BitVec.ofNat 32 (nodeNum * NODE_SIZE))
    lnode := Function.update ms.lnode l (ms.lnode l - BitVec.ofNat 32 nodeNum) }

/-- `alloc_node`.  `none` is a write past the end of the level counters; a `NULL`
answer is `some (none, _)`, and its units have been counted all the same. -/
def allocNode (m : Mm) (nodeNum level : ℕ) : Option (Option Ptr × Mm) :=
  if h : level < MAX_LEVEL then
    let ret := if m.op m.calls nodeNum level then some ⟨m.calls.length, 0⟩ else none
    some (ret, ⟨m.ms.charge nodeNum ⟨level, h⟩, m.op, .alloc nodeNum level ret :: m.calls⟩)
  else none

/-- `dealloc_node`. -/
def deallocNode (m : Mm) (nodeNum level : ℕ) (p : Ptr) : Option Mm :=
  if h : level < MAX_LEVEL then
    some ⟨m.ms.refund nodeNum ⟨level, h⟩, m.op, .dealloc nodeNum level p :: m.calls⟩
  else none

/-- A block as the ledger knows it: base pointer, size in units, level. -/
structure Block where
  base : Ptr
  units : ℕ
  level : ℕ
  deriving DecidableEq, Repr

/-- What a call means for the ledger.  A `NULL` answer hands nothing out. -/
def MmCall.event : MmCall → Option (Event Block)
  | .alloc nodeNum level ret => ret.map fun p => .alloc ⟨p, nodeNum, level⟩
  | .dealloc nodeNum level p => some (.free ⟨p, nodeNum, level⟩)

/-- The trace of a manager. -/
def Mm.events (m : Mm) : List (Event Block) := m.calls.filterMap MmCall.event

/-- The blocks handed out and not taken back. -/
def Mm.live (m : Mm) : Multiset Block := Ledger.live m.events

/-- The units a collection of blocks occupies at one level. -/
def unitsAt (s : Multiset Block) (level : ℕ) : ℕ :=
  ((s.filter fun b => b.level = level).map Block.units).sum

@[simp] theorem unitsAt_zero (level : ℕ) : unitsAt 0 level = 0 := rfl

@[simp] theorem unitsAt_add (s t : Multiset Block) (level : ℕ) :
    unitsAt (s + t) level = unitsAt s level + unitsAt t level := by
  simp [unitsAt, Multiset.filter_add]

@[simp] theorem unitsAt_singleton (b : Block) (level : ℕ) :
    unitsAt {b} level = if b.level = level then b.units else 0 := by
  by_cases h : b.level = level <;> simp [unitsAt, Multiset.filter_singleton, h]

/-- The counters show the units outstanding, as far as 32 bits can. -/
structure MemStat.Counts (ms : MemStat) (s : Multiset Block) : Prop where
  lnode : ∀ l : Fin MAX_LEVEL, ms.lnode l = BitVec.ofNat 32 (unitsAt s l)
  lmem : ∀ l, ms.lmem l = ms.lnode l * BitVec.ofNat 32 NODE_SIZE
  node : ms.node = ∑ l, ms.lnode l
  mem : ms.mem = ∑ l, ms.lmem l

/-- **The books are in order**: only outstanding blocks were given back, with their
count and level, no two outstanding blocks share a base, and the counters agree
with what is outstanding. -/
structure Mm.Sound (m : Mm) : Prop where
  disciplined : Disciplined m.events
  fresh : ∀ b ∈ m.live, b.base.blk < m.calls.length
  nodup : (m.live.map Block.base).Nodup
  counts : m.ms.Counts m.live

/-- The ledger of a memory manager. -/
def mmBook : Book Mm Block := ⟨Mm.live, Mm.Sound⟩

/-- Requests for at least one unit are answered with a block.  Whether a request for
no units is, differs: `calloc` does, the colour allocator does not. -/
def Mm.Succeeds (m : Mm) : Prop := ∀ calls nodeNum level, 0 < nodeNum → m.op calls nodeNum level

/-- Requests for no units are answered with a block as well, as by `calloc`. -/
def Mm.Grants (m : Mm) : Prop := ∀ calls nodeNum level, m.op calls nodeNum level

theorem grants_mmInit_simple : (mmInit simple).Grants := fun _ _ _ => rfl

theorem succeeds_mmInit_simple : (mmInit simple).Succeeds := fun _ _ _ _ => rfl

theorem sound_mmInit (op : MemOp) : (mmInit op).Sound where
  disciplined := trivial
  fresh := by simp [Mm.live, Mm.events, mmInit, Ledger.live]
  nodup := by simp [Mm.live, Mm.events, mmInit, Ledger.live]
  counts := by constructor <;> simp [Mm.live, Mm.events, mmInit, Ledger.live, MemStat.zero]

@[simp] theorem live_mmInit (op : MemOp) : (mmInit op).live = 0 := rfl

/-! ## What the two entry points exchange -/

private theorem sum_update_add {n : ℕ} (f : Fin n → BitVec 32) (i : Fin n) (u : BitVec 32) :
    ∑ j, Function.update f i (f i + u) j = ∑ j, f j + u := by
  rw [Finset.sum_update_of_mem (Finset.mem_univ i), ← Finset.sum_erase_add _ _ (Finset.mem_univ i),
    Finset.sdiff_singleton_eq_erase]
  ring

private theorem sum_update_sub {n : ℕ} (f : Fin n → BitVec 32) (i : Fin n) (u : BitVec 32) :
    ∑ j, Function.update f i (f i - u) j = ∑ j, f j - u := by
  simpa only [sub_eq_add_neg] using sum_update_add f i (-u)

theorem MemStat.Counts.charge {ms : MemStat} {s : Multiset Block} (h : ms.Counts s)
    (p : Ptr) (nodeNum : ℕ) (l : Fin MAX_LEVEL) :
    (ms.charge nodeNum l).Counts (s + {⟨p, nodeNum, l⟩}) where
  lnode := by
    intro k
    by_cases hk : k = l
    · subst hk
      simp [MemStat.charge, h.lnode, BitVec.ofNat_add]
    · have hkl : ¬ (l : ℕ) = k := fun e => hk (Fin.ext e.symm)
      simp [MemStat.charge, h.lnode, hk, hkl]
  lmem := by
    intro k
    by_cases hk : k = l
    · subst hk
      simp only [MemStat.charge, Function.update_self, h.lmem, BitVec.ofNat_mul]
      ring
    · simp [MemStat.charge, h.lmem, hk]
  node := by simp only [MemStat.charge, sum_update_add, h.node]
  mem := by simp only [MemStat.charge, sum_update_add, h.mem]

theorem MemStat.Counts.refund {ms : MemStat} {s : Multiset Block} {p : Ptr} {nodeNum : ℕ}
    {l : Fin MAX_LEVEL} (h : ms.Counts (s + {⟨p, nodeNum, l⟩})) :
    (ms.refund nodeNum l).Counts s where
  lnode := by
    intro k
    by_cases hk : k = l
    · subst hk
      simp [MemStat.refund, h.lnode, BitVec.ofNat_add]
    · have hkl : ¬ (l : ℕ) = k := fun e => hk (Fin.ext e.symm)
      simp [MemStat.refund, h.lnode, hk, hkl]
  lmem := by
    intro k
    by_cases hk : k = l
    · subst hk
      simp only [MemStat.refund, Function.update_self, h.lmem, BitVec.ofNat_mul]
      ring
    · simp [MemStat.refund, h.lmem, hk]
  node := by simp only [MemStat.refund, sum_update_sub, h.node]
  mem := by simp only [MemStat.refund, sum_update_sub, h.mem]

@[simp] theorem MemStat.charge_zero (ms : MemStat) (l : Fin MAX_LEVEL) : ms.charge 0 l = ms := by
  simp [MemStat.charge]

theorem events_cons (ms : MemStat) (op : MemOp) (call : MmCall) (calls : List MmCall) :
    Mm.events ⟨ms, op, call :: calls⟩ =
      call.event.toList ++ calls.filterMap MmCall.event := by
  cases h : call.event <;> simp [Mm.events, h]

/-- The block a request got, as a ledger entry. -/
def granted (ret : Option Ptr) (nodeNum level : ℕ) : Multiset Block :=
  ret.elim 0 fun p => {⟨p, nodeNum, level⟩}

/-- An answered request adds a block to the ledger. -/
theorem trades_grant (m : Mm) (nodeNum : ℕ) (l : Fin MAX_LEVEL) :
    mmBook.Trades m ⟨m.ms.charge nodeNum l, m.op,
      .alloc nodeNum l (some ⟨m.calls.length, 0⟩) :: m.calls⟩ 0
      {⟨⟨m.calls.length, 0⟩, nodeNum, l⟩} := by
  intro rest hsound hlive
  change m.live = rest + 0 at hlive
  rw [add_zero] at hlive
  have hlive' : Mm.live ⟨m.ms.charge nodeNum l, m.op,
      .alloc nodeNum l (some ⟨m.calls.length, 0⟩) :: m.calls⟩ =
        rest + {⟨⟨m.calls.length, 0⟩, nodeNum, l⟩} := by
    rw [Mm.live, events_cons]
    change _ ::ₘ m.live = _
    rw [hlive, add_comm, Multiset.singleton_add]
  refine ⟨⟨?_, ?_, ?_, ?_⟩, hlive'⟩
  · rw [events_cons]
    exact hsound.disciplined
  · rw [hlive']
    intro b hb
    rcases Multiset.mem_add.mp hb with hb | hb
    · exact Nat.lt_succ_of_lt (hsound.fresh b (hlive ▸ hb))
    · rw [Multiset.mem_singleton.mp hb]
      exact Nat.lt_succ_self _
  · rw [hlive', Multiset.map_add, Multiset.map_singleton, add_comm, Multiset.singleton_add,
      Multiset.nodup_cons]
    refine ⟨?_, hlive ▸ hsound.nodup⟩
    intro hmem
    obtain ⟨b, hb, hbase⟩ := Multiset.mem_map.mp hmem
    have hlt := hsound.fresh b (hlive ▸ hb)
    rw [hbase] at hlt
    exact lt_irrefl _ hlt
  · rw [hlive']
    exact (hlive ▸ hsound.counts).charge _ nodeNum l

/-- A refused request for no units changes neither the ledger nor the counters. -/
theorem trades_refuse (m : Mm) (l : Fin MAX_LEVEL) :
    mmBook.Trades m ⟨m.ms.charge 0 l, m.op, .alloc 0 l none :: m.calls⟩ 0 0 := by
  intro rest hsound hlive
  have hev : Mm.events ⟨m.ms.charge 0 l, m.op, .alloc 0 l none :: m.calls⟩ = m.events := by
    rw [events_cons]
    rfl
  refine ⟨⟨?_, ?_, ?_, ?_⟩, ?_⟩
  · rw [hev]
    exact hsound.disciplined
  · rw [Mm.live, hev]
    exact fun b hb => Nat.lt_succ_of_lt (hsound.fresh b hb)
  · rw [Mm.live, hev]
    exact hsound.nodup
  · rw [Mm.live, hev, MemStat.charge_zero]
    exact hsound.counts
  · change Ledger.live _ = _
    rw [hev]
    exact hlive

theorem allocNode_spec {m : Mm} (hok : m.Succeeds) (nodeNum : ℕ) {level : ℕ}
    (hlevel : level < MAX_LEVEL) :
    ∃ ret m', allocNode m nodeNum level = some (ret, m') ∧ m'.op = m.op ∧
      m'.calls = .alloc nodeNum level ret :: m.calls ∧
      (ret = none → nodeNum = 0) ∧ (m.Grants → ret ≠ none) ∧
      mmBook.Trades m m' 0 (granted ret nodeNum level) := by
  rw [allocNode, dif_pos hlevel]
  by_cases hans : m.op m.calls nodeNum level
  · rw [if_pos hans]
    exact ⟨_, _, rfl, rfl, rfl, by simp, by simp, trades_grant m nodeNum ⟨level, hlevel⟩⟩
  · have hzero : nodeNum = 0 := by
      by_contra hpos
      exact hans (hok m.calls nodeNum level (Nat.pos_of_ne_zero hpos))
    subst hzero
    rw [if_neg hans]
    exact ⟨_, _, rfl, rfl, rfl, by simp, fun hgrants => absurd (hgrants _ _ _) hans,
      trades_refuse m ⟨level, hlevel⟩⟩

theorem deallocNode_spec (m : Mm) (nodeNum : ℕ) {level : ℕ} (hlevel : level < MAX_LEVEL)
    (p : Ptr) :
    ∃ m', deallocNode m nodeNum level p = some m' ∧ m'.op = m.op ∧
      m'.calls = .dealloc nodeNum level p :: m.calls ∧
      mmBook.Trades m m' {⟨p, nodeNum, level⟩} 0 := by
  rw [deallocNode, dif_pos hlevel]
  refine ⟨_, rfl, rfl, rfl, ?_⟩
  intro rest hsound hlive
  change m.live = rest + {_} at hlive
  have hlive' : Mm.live ⟨m.ms.refund nodeNum ⟨level, hlevel⟩, m.op,
      .dealloc nodeNum level p :: m.calls⟩ = rest := by
    rw [Mm.live, events_cons]
    exact live_free_of_eq hlive
  have hsub : ∀ b ∈ rest, b ∈ m.live := fun b hb => hlive ▸ Multiset.mem_add.mpr (.inl hb)
  refine ⟨⟨?_, ?_, ?_, ?_⟩, by rw [add_zero]; exact hlive'⟩
  · rw [events_cons]
    refine ⟨?_, hsound.disciplined⟩
    change _ ∈ m.live
    rw [hlive]
    exact Multiset.mem_add.mpr (.inr (Multiset.mem_singleton_self _))
  · rw [hlive']
    exact fun b hb => Nat.lt_succ_of_lt (hsound.fresh b (hsub b hb))
  · rw [hlive']
    have hnodup := hsound.nodup
    rw [hlive, Multiset.map_add] at hnodup
    exact (Multiset.nodup_add.mp hnodup).1
  · rw [hlive']
    exact (hlive ▸ hsound.counts).refund (l := ⟨level, hlevel⟩)

end TreeBitmap
