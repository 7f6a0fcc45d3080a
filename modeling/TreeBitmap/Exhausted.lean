import TreeBitmap.Queries
import TreeBitmap.Stray

/-!
# A delete when memory has run out

A delete makes nodes smaller, but each of its edits asks for a new block all the same.
`update_nodes` edits the last node, and then one node after the other above it, as long as the one
below has become empty.  An emptied node asks for no units, and nothing is copied into its block:
`NULL` is as good an answer as any.  So only the last request of a delete has to be answered, and
not even that one if the whole trie has become empty.

## Main definitions

* `Mm.withOp` — the memory manager with another allocator from here on.
* `lastRequest` — the latest request.
* `EditAsks`, `Asked` — how an edit asks, and how `update_nodes` does.
* `runs_exhausted` — **when a delete survives**, whichever requests are refused.
-/

namespace TreeBitmap

open BitString Ranked

variable {m m' m₁ m₂ : Mm} {n n' root : MbNode} {w pos level mbCnt nhCnt units : ℕ}
  {calls base : List MmCall} {frames : List (MbNode × ℕ)}

/-- The memory manager with another allocator from here on. -/
def Mm.withOp (m : Mm) (op : MemOp) : Mm := { m with op := op }

@[simp] theorem calls_withOp (m : Mm) (op : MemOp) : (m.withOp op).calls = m.calls := rfl

@[simp] theorem op_withOp (m : Mm) (op : MemOp) : (m.withOp op).op = op := rfl

@[simp] theorem withOp_withOp (m : Mm) (op op' : MemOp) :
    (m.withOp op).withOp op' = m.withOp op' := rfl

/-- The latest request: its units, its level, and the calls before it. -/
def lastRequest : List MmCall → Option (ℕ × ℕ × List MmCall)
  | [] => none
  | .alloc nodeNum level _ :: calls => some (nodeNum, level, calls)
  | .dealloc _ _ _ :: calls => lastRequest calls

theorem lastRequest_suffix {l : List MmCall} (h : lastRequest l = some (units, level, calls)) :
    calls <:+ l := by
  induction l with
  | nil => cases h
  | cons call l ih =>
      cases call with
      | alloc nodeNum level ret =>
          cases h
          exact List.suffix_cons _ _
      | dealloc nodeNum level p => exact (ih h).trans (List.suffix_cons _ l)

/-! ## A request and a release -/

theorem allocNode_withOp {ret : Option Ptr} {op : MemOp}
    (h : allocNode m units level = some (ret, m₁))
    (hop : op m.calls units level = m.op m.calls units level) :
    allocNode (m.withOp op) units level = some (ret, m₁.withOp op) := by
  by_cases hlevel : level < MAX_LEVEL
  · rw [allocNode, dif_pos hlevel] at h ⊢
    rw [op_withOp, calls_withOp, hop]
    cases h
    rfl
  · rw [allocNode, dif_neg hlevel] at h
    cases h

theorem newNode_withOp {r : Region} {op : MemOp} (h : newNode m mbCnt nhCnt level = some (r, m₁))
    (hop : op m.calls (upChild mbCnt + upRule nhCnt) level =
      m.op m.calls (upChild mbCnt + upRule nhCnt) level) :
    newNode (m.withOp op) mbCnt nhCnt level = some (r, m₁.withOp op) := by
  rw [newNode] at h ⊢
  obtain ⟨⟨ret, m₀⟩, halloc, h⟩ := Option.bind_eq_some_iff.mp h
  rw [allocNode_withOp halloc hop]
  cases ret <;> cases h <;> rfl

theorem lastRequest_newNode {r : Region} (h : newNode m mbCnt nhCnt level = some (r, m₁)) :
    m₁.op = m.op ∧
      lastRequest m₁.calls = some (upChild mbCnt + upRule nhCnt, level, m.calls) := by
  rw [newNode] at h
  obtain ⟨⟨ret, m₀⟩, halloc, h⟩ := Option.bind_eq_some_iff.mp h
  obtain rfl : m₀ = m₁ := by
    cases ret <;> cases h <;> rfl
  rw [allocNode] at halloc
  split at halloc
  · cases halloc
    exact ⟨rfl, rfl⟩
  · cases halloc

/-- A refused block has no slots. -/
theorem newNode_of_refused {r : Region} (h : newNode m mbCnt nhCnt level = some (r, m₁))
    (hop : m.op m.calls (upChild mbCnt + upRule nhCnt) level = false) :
    r.rules = [] ∧ r.children = [] := by
  rw [newNode, allocNode, hop] at h
  split at h
  · cases h
    exact ⟨rfl, rfl⟩
  · cases h

theorem freeOld_withOp {a b : ℕ} (op : MemOp) (h : freeOld m n a b level = some m') :
    freeOld (m.withOp op) n a b level = some (m'.withOp op) := by
  rw [freeOld] at h ⊢
  cases hp : n.childPtr with
  | none =>
      rw [hp] at h
      cases h
      rfl
  | some p =>
      simp only [hp, freeNode, deallocNode] at h ⊢
      split_ifs at h ⊢
      cases h
      rfl

theorem lastRequest_freeOld {a b : ℕ} (h : freeOld m n a b level = some m') :
    m'.op = m.op ∧ lastRequest m'.calls = lastRequest m.calls := by
  rw [freeOld] at h
  cases hp : n.childPtr with
  | none =>
      rw [hp] at h
      cases h
      exact ⟨rfl, rfl⟩
  | some p =>
      simp only [hp, freeNode, deallocNode] at h
      split_ifs at h
      cases h
      exact ⟨rfl, rfl⟩

/-! ## The two edits -/

/-- How an edit of a delete asks: once, and it needs an answer just if the node does not become
empty.  With the same answer, another allocator leads to the same. -/
structure EditAsks (m m' : Mm) (n' : MbNode) (units level : ℕ)
    (edit : Mm → Option (MbNode × Mm)) : Prop where
  op : m'.op = m.op
  last : lastRequest m'.calls = some (units, level, m.calls)
  answered : units ≠ 0 → m.op m.calls units level = true
  empty : units = 0 ↔ n'.isEmpty = true
  same : ∀ op, op m.calls units level = m.op m.calls units level →
    edit (m.withOp op) = some (n', m'.withOp op)

/-- An edit is a request, copies into the new block, and a release. -/
theorem editAsks_of_newNode {r : Region} {a b : ℕ} {edit : Mm → Option (MbNode × Mm)}
    (hnew : newNode m mbCnt nhCnt level = some (r, m₁)) (hfree : freeOld m₁ n a b level = some m')
    (hcopied : r.rules = [] → r.children = [] → mbCnt = 0 ∧ nhCnt = 0)
    (hempty : n'.isEmpty = true ↔ mbCnt = 0 ∧ nhCnt = 0)
    (hsame : ∀ op, newNode (m.withOp op) mbCnt nhCnt level = some (r, m₁.withOp op) →
      freeOld (m₁.withOp op) n a b level = some (m'.withOp op) →
      edit (m.withOp op) = some (n', m'.withOp op)) :
    EditAsks m m' n' (upChild mbCnt + upRule nhCnt) level edit := by
  have hzero : upChild mbCnt + upRule nhCnt = 0 ↔ mbCnt = 0 ∧ nhCnt = 0 := by
    rw [Nat.add_eq_zero_iff, upRule_eq_zero_iff, upChild]
  obtain ⟨hop₁, hlast₁⟩ := lastRequest_newNode hnew
  obtain ⟨hop, hlast⟩ := lastRequest_freeOld hfree
  refine ⟨hop.trans hop₁, hlast.trans hlast₁, fun hne => ?_, hzero.trans hempty.symm,
    fun op h => hsame op (newNode_withOp hnew h) (freeOld_withOp op hfree)⟩
  by_contra hrefused
  obtain ⟨hrules, hchildren⟩ := newNode_of_refused hnew (Bool.eq_false_iff.mpr hrefused)
  exact hne (hzero.mpr (hcopied hrules hchildren))

/-- Nothing can be copied to `NULL`. -/
theorem memcpy_nil {β : Type} {src l : List β} {j i len : ℤ}
    (h : memcpy [] j src i len = some l) : len = 0 ∧ l = [] := by
  rw [memcpy] at h
  split_ifs at h with hlen hbound
  · exact ⟨hlen, (Option.some.inj h).symm⟩
  · have hle := hbound.2.2.2.2
    rw [List.length_nil] at hle
    omega

theorem reduceRule_asks (hpos : pos ∈ members n.internal)
    (h : reduceRule m n pos level = some (n', m')) :
    ∃ units, EditAsks m m' n' units level fun m => reduceRule m n pos level := by
  have hone : ¬ countChildren n.internal < 1 := by
    rw [countChildren_eq_card]
    exact Nat.not_lt.mpr (Finset.card_pos.mpr ⟨pos, hpos⟩)
  rw [reduceRule, if_neg hone] at h
  obtain ⟨⟨r, m₁⟩, hnew, h⟩ := Option.bind_eq_some_iff.mp h
  obtain ⟨children, hchildren, h⟩ := Option.bind_eq_some_iff.mp h
  obtain ⟨rules, hrules, h⟩ := Option.bind_eq_some_iff.mp h
  obtain ⟨m₂, hfree, h⟩ := Option.bind_eq_some_iff.mp h
  cases h
  refine ⟨_, editAsks_of_newNode hnew hfree (fun hr hc => ⟨?_, ?_⟩) ?_ fun op hnew' hfree' => ?_⟩
  · by_contra hne
    rw [if_pos hne, hc] at hchildren
    exact hne (Int.natCast_eq_zero.mp (memcpy_nil hchildren).1)
  · by_contra hne
    have hlt : 1 < countChildren n.internal := by omega
    rw [if_pos hlt, hr] at hrules
    obtain ⟨l, hl, hrules⟩ := Option.bind_eq_some_iff.mp hrules
    obtain ⟨hfirst, rfl⟩ := memcpy_nil hl
    have hsecond := (memcpy_nil hrules).1
    omega
  · rw [isEmpty_iff, members_clearBitmap, ← Finset.card_eq_zero, Finset.card_erase_of_mem hpos,
      ← Finset.card_eq_zero, countChildren_eq_card, countChildren_eq_card, and_comm]
  · rw [reduceRule, if_neg hone]
    refine Option.bind_eq_some_iff.mpr ⟨(r, m₁.withOp op), hnew', ?_⟩
    refine Option.bind_eq_some_iff.mpr ⟨children, hchildren, ?_⟩
    refine Option.bind_eq_some_iff.mpr ⟨rules, hrules, ?_⟩
    exact Option.bind_eq_some_iff.mpr ⟨m'.withOp op, hfree', rfl⟩

theorem reduceChild_asks (hpos : pos ∈ members n.external)
    (h : reduceChild m n pos level = some (n', m')) :
    ∃ units, EditAsks m m' n' units level fun m => reduceChild m n pos level := by
  obtain ⟨⟨⟩, hguard, h⟩ := Option.bind_eq_some_iff.mp h
  obtain ⟨⟨r, m₁⟩, hnew, h⟩ := Option.bind_eq_some_iff.mp h
  obtain ⟨rules, hrules, h⟩ := Option.bind_eq_some_iff.mp h
  obtain ⟨children, hchildren, h⟩ := Option.bind_eq_some_iff.mp h
  obtain ⟨m₂, hfree, h⟩ := Option.bind_eq_some_iff.mp h
  cases h
  refine ⟨_, editAsks_of_newNode hnew hfree (fun hr hc => ⟨?_, ?_⟩) ?_ fun op hnew' hfree' => ?_⟩
  · by_contra hne
    have hlt : 1 < countChildren n.external := by omega
    rw [if_pos hlt, hc] at hchildren
    obtain ⟨l, hl, hchildren⟩ := Option.bind_eq_some_iff.mp hchildren
    obtain ⟨hfirst, rfl⟩ := memcpy_nil hl
    have hsecond := (memcpy_nil hchildren).1
    omega
  · by_contra hne
    rw [if_pos hne, hr] at hrules
    exact hne (Int.natCast_eq_zero.mp (memcpy_nil hrules).1)
  · rw [isEmpty_iff, members_clearBitmap, ← Finset.card_eq_zero, ← Finset.card_eq_zero,
      Finset.card_erase_of_mem hpos, countChildren_eq_card, countChildren_eq_card, and_comm]
  · refine Option.bind_eq_some_iff.mpr ⟨(), hguard, ?_⟩
    refine Option.bind_eq_some_iff.mpr ⟨(r, m₁.withOp op), hnew', ?_⟩
    refine Option.bind_eq_some_iff.mpr ⟨rules, hrules, ?_⟩
    refine Option.bind_eq_some_iff.mpr ⟨children, hchildren, ?_⟩
    exact Option.bind_eq_some_iff.mpr ⟨m'.withOp op, hfree', rfl⟩

/-! ## The way up -/

/-- The allocators agree on the requests for nothing, and on this one. -/
def SameAnswers (op op' : MemOp) (units level : ℕ) (calls : List MmCall) : Prop :=
  (∀ calls level, op calls 0 level = op' calls 0 level) ∧
    op calls units level = op' calls units level

theorem SameAnswers.symm {op op' : MemOp} (h : SameAnswers op op' units level calls) :
    SameAnswers op' op units level calls :=
  ⟨fun calls level => (h.1 calls level).symm, h.2.symm⟩

/-- Where `update_nodes` has come to since the calls `base`: the latest request had to be answered
just if something is left of the node, and was. -/
structure Asked (op₀ : MemOp) (base : List MmCall) (m : Mm) (n : MbNode) (units level : ℕ)
    (calls : List MmCall) : Prop where
  op : m.op = op₀
  last : lastRequest m.calls = some (units, level, calls)
  since : base <:+ calls
  answered : units ≠ 0 → op₀ calls units level = true
  empty : units = 0 ↔ n.isEmpty = true

theorem external_setChild {c : MbNode} (h : n.setChild pos c = some n') :
    n'.external = n.external := by
  obtain ⟨children, -, h⟩ := Option.bind_eq_some_iff.mp h
  cases h
  rfl

theorem isEmpty_eq_false_of_mem (h : pos ∈ members n.external) : n.isEmpty = false := by
  by_contra he
  rw [Bool.not_eq_false] at he
  rw [(isEmpty_iff.mp he).2] at h
  exact absurd h (Finset.notMem_empty pos)

theorem EditAsks.asked {edit : Mm → Option (MbNode × Mm)}
    (h : EditAsks m m' n' units level edit) (hbase : base <:+ m.calls) :
    Asked m.op base m' n' units level m.calls :=
  ⟨h.op, h.last, hbase, h.answered, h.empty⟩

/-- The way up from a changed node `n`. -/
theorem updateParents_asks {op₀ : MemOp} {ret : Bool}
    (hframes : ∀ e ∈ frames, e.2 ∈ members e.1.external)
    (hasked : Asked op₀ base m n units level calls)
    (h : updateParents m n n.isEmpty frames = some (root, m', ret)) :
    ∃ units' level' calls', Asked op₀ base m' root units' level' calls' ∧
      ∀ op, SameAnswers op op₀ units' level' calls' → SameAnswers op op₀ units level calls ∧
        updateParents (m.withOp op) n n.isEmpty frames = some (root, m'.withOp op, ret) := by
  induction frames generalizing m n units level calls with
  | nil =>
      cases h
      exact ⟨units, level, calls, hasked, fun op hop => ⟨hop, rfl⟩⟩
  | cons e frames ih =>
      obtain ⟨node, pos⟩ := e
      have hpos : pos ∈ members node.external := hframes (node, pos) List.mem_cons_self
      have hrest : ∀ e ∈ frames, e.2 ∈ members e.1.external :=
        fun e he => hframes e (List.mem_cons_of_mem _ he)
      obtain ⟨n₁, hset, h⟩ := Option.bind_eq_some_iff.mp h
      obtain ⟨⟨n₂, m₂⟩, hedit, h⟩ := Option.bind_eq_some_iff.mp h
      have hpos₁ : pos ∈ members n₁.external := external_setChild hset ▸ hpos
      by_cases hempty : n.isEmpty = true
      · -- the node below is cut out: a new request, and the one before was for nothing
        rw [if_pos hempty] at hedit
        obtain ⟨units₂, hasks⟩ := reduceChild_asks hpos₁ hedit
        obtain rfl : m.op = op₀ := hasked.op
        have hbase := hasked.since.trans (lastRequest_suffix hasked.last)
        obtain ⟨units', level', calls', hend, hsame⟩ := ih hrest (hasks.asked hbase) h
        refine ⟨units', level', calls', hend, fun op hop => ?_⟩
        obtain ⟨hop₂, hup⟩ := hsame op hop
        obtain rfl : units = 0 := hasked.empty.mpr hempty
        refine ⟨⟨hop.1, hop.1 _ _⟩, Option.bind_eq_some_iff.mpr ⟨n₁, hset, ?_⟩⟩
        refine Option.bind_eq_some_iff.mpr ⟨(n₂, m₂.withOp op), ?_, hup⟩
        rw [if_pos hempty]
        exact hasks.same op hop₂.2
      · rw [if_neg hempty] at hedit
        cases hedit
        have hne : units ≠ 0 := fun hzero => hempty (hasked.empty.mp hzero)
        have hfull := isEmpty_eq_false_of_mem hpos₁
        have hasked₁ : Asked op₀ base m n₁ units level calls :=
          ⟨hasked.op, hasked.last, hasked.since, hasked.answered, by simp [hne, hfull]⟩
        obtain ⟨units', level', calls', hend, hsame⟩ := ih hrest hasked₁ h
        refine ⟨units', level', calls', hend, fun op hop => ?_⟩
        obtain ⟨hop₁, hup⟩ := hsame op hop
        refine ⟨hop₁, Option.bind_eq_some_iff.mpr ⟨n₁, hset, ?_⟩⟩
        refine Option.bind_eq_some_iff.mpr ⟨(n₁, m.withOp op), ?_, hup⟩
        rw [if_neg hempty]

theorem updateNodes_asks {ret : Bool} (hpos : pos ∈ members n.internal)
    (hframes : ∀ e ∈ frames, e.2 ∈ members e.1.external)
    (h : updateNodes m ((n, pos) :: frames) = some (root, m', ret)) :
    ∃ units level calls, Asked m.op m.calls m' root units level calls ∧
      ∀ op, SameAnswers op m.op units level calls →
        updateNodes (m.withOp op) ((n, pos) :: frames) = some (root, m'.withOp op, ret) := by
  obtain ⟨⟨n₁, m₁⟩, hedit, h⟩ := Option.bind_eq_some_iff.mp h
  obtain ⟨units₁, hasks⟩ := reduceRule_asks hpos hedit
  obtain ⟨units, level, calls, hend, hsame⟩ :=
    updateParents_asks hframes (hasks.asked (List.suffix_refl _)) h
  refine ⟨units, level, calls, hend, fun op hop => ?_⟩
  obtain ⟨hop₁, hup⟩ := hsame op hop
  exact Option.bind_eq_some_iff.mpr ⟨(n₁, m₁.withOp op), hasks.same op hop₁.2, hup⟩

/-! ## The whole delete -/

section Delete

variable {α : Type} [IpAddr α] {ip : α} {s : List Bool} {trace : List (MbNode × ℕ)} {d : Bool}

/-- The way down to a string of the trie goes through set positions. -/
theorem deleteTrace_marks {v : Nhi} (hn : n.Wf w) (hip : Spells ip s) (hv : n.get s = some v)
    (hlevel : trace.length + w / 6 < LEVEL α) (htrace : ∀ e ∈ trace, e.2 ∈ members e.1.external) :
    ∃ last pos frames, deleteTrace n ip s.length trace = some ((last, pos) :: frames) ∧
      pos ∈ members last.internal ∧ ∀ e ∈ frames, e.2 ∈ members e.1.external := by
  induction s using stride_induction generalizing n w ip trace with
  | leaf s hlt =>
      have hrule : n.rule (inlPos s) = some v := (MbNode.get_of_lt hlt).symm.trans hv
      exact ⟨n, inlPos s, trace, deleteTrace_of_lt hip hlt (by omega), mem_of_rule hrule, htrace⟩
  | inner t s ht ih =>
      rw [MbNode.get_append ht] at hv
      obtain ⟨c, hc, hvc⟩ := Option.bind_eq_some_iff.mp hv
      have hw := hn.le_of_kid hc
      have hlevel₁ : ((n, value t) :: trace).length + (w - 6) / 6 < LEVEL α := by
        rw [List.length_cons]
        omega
      have htrace₁ : ∀ e ∈ (n, value t) :: trace, e.2 ∈ members e.1.external := by
        intro e he
        rcases List.mem_cons.mp he with rfl | he
        · exact mem_of_kid hc
        · exact htrace e he
      obtain ⟨last, pos, frames, hdown, hpos, hframes⟩ :=
        ih (hn.kids hc) (hip.lshift_append ht) hvc hlevel₁ htrace₁
      refine ⟨last, pos, frames, ?_, hpos, hframes⟩
      have hchild : n.child (value t) = some c := load_nextChild hc
      rw [deleteTrace_append ht hip (by omega), hchild, Option.bind_some, hdown]

/-- **How a delete asks.** -/
theorem deletePrefix_asks {v : Nhi} {ret : Bool} {nhis : List Nhi} (hn : n.Wf w)
    (hw : w ≤ IpAddr.LENGTH α) (hip : Spells ip s) (hv : n.get s = some v)
    (h : deletePrefix m n ip s.length d = some (n', m', ret, nhis)) :
    ∃ units level calls, Asked m.op m.calls m' n' units level calls ∧
      ∀ op, SameAnswers op m.op units level calls →
        deletePrefix (m.withOp op) n ip s.length d = some (n', m'.withOp op, ret, nhis) := by
  obtain ⟨last, pos, frames, htrace, hpos, hframes⟩ :=
    deleteTrace_marks hn hip hv (level_nil hw) (fun _ h => absurd h List.not_mem_nil)
  rw [deletePrefix, htrace] at h
  simp only [deletePrefix, htrace, Option.bind_eq_bind, Option.bind_some, List.head?_cons] at h ⊢
  obtain ⟨nhis', hnhis, h⟩ := Option.bind_eq_some_iff.mp h
  obtain ⟨⟨n₁, m₁, ret₁⟩, hup, h⟩ := Option.bind_eq_some_iff.mp h
  cases h
  obtain ⟨units, level, calls, hasked, hsame⟩ := updateNodes_asks hpos hframes hup
  refine ⟨units, level, calls, hasked, fun op hop => ?_⟩
  refine Option.bind_eq_some_iff.mpr ⟨nhis, hnhis, ?_⟩
  exact Option.bind_eq_some_iff.mpr ⟨_, hsame op hop, rfl⟩

end Delete

/-! ## Runs -/

/-- The allocator `op`, but for requests of at least one unit, which are all answered. -/
def MemOp.answering (op : MemOp) : MemOp :=
  fun calls nodeNum level => decide (0 < nodeNum) || op calls nodeNum level

/-- A delete with the allocator `op` from here on, beside the same delete with all its requests
answered: it faults if `op` refuses the latest of these requests, unless that is for nothing, since
nothing is stored any more.  Otherwise it comes to the same.  As the delete with the allocator of
before does, it makes the trie of these arrays, returns `ret` and calls `destroy_nhi` for `nhis`. -/
def SurvivesUnless (delete : Mm → Option (MbNode × Mm × Bool × List Nhi)) (m : Mm) (op : MemOp)
    (last : Prop) : Prop :=
  ∃ (root₁ : MbNode) (m₁ : Mm) (root₂ : MbNode) (m₂ : Mm) (ret : Bool) (nhis : List Nhi)
    (units level : ℕ) (calls : List MmCall),
    delete m = some (root₁, m₁, ret, nhis) ∧
      delete (m.withOp op.answering) = some (root₂, m₂, ret, nhis) ∧
      root₂.contents = root₁.contents ∧
      -- the delete has made this request, after the calls of before
      lastRequest m₂.calls = some (units, level, calls) ∧ m.calls <:+ calls ∧
      (units = 0 ↔ last) ∧
      delete (m.withOp op) =
        if units = 0 ∨ op calls units level = true then some (root₂, m₂.withOp op, ret, nhis)
        else none

/-- After any run of the trie, for every delete of a stored prefix and every allocator from then
on. -/
def ExhaustedRuns {α : Type} [IpAddr α] [DecidableEq α]
    (step : MbNode × Mm → Op α → Option (MbNode × Mm))
    (delete : MbNode → Mm → α → ℕ → Bool → Option (MbNode × Mm × Bool × List Nhi)) : Prop :=
  ∀ m ops, m.Succeeds → (storedMachine α).Legal ∅ ops →
    ∃ root m', ops.foldlM step (.zero, m) = some (root, m') ∧
      ∀ p ∈ (storedMachine α).exec ∅ ops, ∀ d op,
        SurvivesUnless (fun m => delete root m p.ip p.cidr d) m' op
          (((storedMachine α).exec ∅ ops).erase p = ∅)

section Runs

variable {α : Type} [IpAddr α] [DecidableEq α] {T : Stored α}

theorem succeeds_answering (m : Mm) (op : MemOp) : (m.withOp op.answering).Succeeds := by
  intro calls nodeNum level hpos
  simp [MemOp.answering, hpos]

theorem sameAnswers_answering {op : MemOp} (h : units = 0 ∨ op calls units level = true) :
    SameAnswers op op.answering units level calls := by
  refine ⟨fun calls level => by simp [MemOp.answering], ?_⟩
  rcases h with rfl | h
  · simp [MemOp.answering]
  · simp [MemOp.answering, h]

theorem Mirrors.withOp {st : MbNode × Mm} (h : Mirrors st T) {op : MemOp}
    (hop : (st.2.withOp op).Succeeds) : Mirrors (st.1, st.2.withOp op) T :=
  ⟨h.wf, h.get, h.nhis, hop⟩

/-- A delete of a stored prefix, with what it returns. -/
theorem Mirrors.deletePrefix_eq (h : Mirrors (root, m) T) {p : Prefix α} {v : Nhi}
    (hv : T.lookup p = some v) (d : Bool) :
    ∃ root' m', TreeBitmap.deletePrefix m root p.ip p.cidr d =
        some (root', m', root'.isEmpty, if d then [v] else []) ∧
      Mirrors (root', m') (T.erase p) := by
  have hget : root.get p.bits = some v :=
    (congrFun h.get p.bits).trans ((table_bits p).trans hv)
  obtain ⟨root', m', lost, hdel, -⟩ :=
    deletePrefix_spec h.succeeds h.wf p.spells (le_refl _) hget d
  rw [p.length_bits] at hdel
  obtain ⟨root'', m'', ret, calls, hdel', hmir⟩ :=
    h.deletePrefix (Finmap.mem_of_lookup_eq_some hv) d
  rw [hdel] at hdel'
  cases hdel'
  exact ⟨root', m', hdel, hmir⟩

/-- **How a delete asks**, in a trie that holds a map and with any allocator. -/
theorem Mirrors.delete_asks (h : Mirrors (root, m) T) {p : Prefix α} (hp : p ∈ T) {d ret : Bool}
    {nhis : List Nhi}
    (hdel : TreeBitmap.deletePrefix m₁ root p.ip p.cidr d = some (n', m', ret, nhis)) :
    ∃ units level calls, Asked m₁.op m₁.calls m' n' units level calls ∧
      ∀ op, SameAnswers op m₁.op units level calls →
        TreeBitmap.deletePrefix (m₁.withOp op) root p.ip p.cidr d =
          some (n', m'.withOp op, ret, nhis) := by
  obtain ⟨v, hv⟩ := Option.isSome_iff_exists.mp ((h.isSome_get_iff p).mpr hp)
  rw [← p.length_bits] at hdel ⊢
  exact deletePrefix_asks h.wf (le_refl _) p.spells hv hdel

/-- **When a delete survives**, in a trie that holds a map. -/
theorem Mirrors.survivesUnless (h : Mirrors (root, m) T) {p : Prefix α} (hp : p ∈ T) (d : Bool)
    (op : MemOp) :
    SurvivesUnless (fun m => TreeBitmap.deletePrefix m root p.ip p.cidr d) m op
      (T.erase p = ∅) := by
  obtain ⟨v, hv⟩ := Finmap.mem_iff.mp hp
  obtain ⟨root₁, m₁, hdel₁, hmir₁⟩ := h.deletePrefix_eq hv d
  -- the delete with an allocator that answers where it has to
  have h₀ : Mirrors (root, m.withOp op.answering) T := h.withOp (succeeds_answering m op)
  obtain ⟨root₂, m₂, hdel₂, hmir₂⟩ := h₀.deletePrefix_eq hv d
  have hempty : root₂.isEmpty = root₁.isEmpty :=
    Bool.eq_iff_iff.mpr (hmir₂.isEmpty_iff.trans hmir₁.isEmpty_iff.symm)
  rw [hempty] at hdel₂
  obtain ⟨units, level, calls, hasked, hsame⟩ := h.delete_asks hp hdel₂
  refine ⟨root₁, m₁, root₂, m₂, _, _, units, level, calls, hdel₁, hdel₂,
    hmir₂.contents_eq hmir₁, hasked.last, hasked.since, hasked.empty.trans hmir₂.isEmpty_iff, ?_⟩
  by_cases hanswer : units = 0 ∨ op calls units level = true
  · rw [if_pos hanswer]
    exact hsame op (sameAnswers_answering hanswer)
  · -- a delete that came through would have been answered, and be the one above
    rw [if_neg hanswer]
    by_contra hsome
    obtain ⟨⟨root₃, m₃, ret₃, nhis₃⟩, hdel₃⟩ := Option.ne_none_iff_exists'.mp hsome
    obtain ⟨units₃, level₃, calls₃, hasked₃, hsame₃⟩ := h.delete_asks hp hdel₃
    have hanswer₃ : units₃ = 0 ∨ op calls₃ units₃ level₃ = true :=
      or_iff_not_imp_left.mpr hasked₃.answered
    have hdel := hsame₃ _ (sameAnswers_answering hanswer₃).symm
    rw [withOp_withOp, hdel₂] at hdel
    cases hdel
    have heq := hasked.last.symm.trans hasked₃.last
    cases heq
    exact hanswer hanswer₃

theorem exhaustedRuns_trieStep :
    ExhaustedRuns (α := α) trieStep fun root m => deletePrefix m root := by
  intro m ops hm hops
  obtain ⟨⟨root, m'⟩, hrun, hmir⟩ := exists_trieStep_run hm hops
  exact ⟨root, m', hrun, fun p hp d op => hmir.survivesUnless hp d op⟩

end Runs

/-- **When a delete survives**, after any run of either trie: just if its last request is answered,
or nothing is left to be stored. -/
theorem runs_exhausted :
    ExhaustedRuns bitmapStep bitmapDeletePrefix ∧
      ExhaustedRuns bitmapv6Step bitmapv6DeletePrefix := by
  rw [bitmapStep_eq, bitmapv6Step_eq]
  exact ⟨exhaustedRuns_trieStep, exhaustedRuns_trieStep⟩

/-- Without memory, the delete of one of two prefixes faults, and the last prefix can be deleted. -/
theorem runs_exhausted_tenSlash8 :
    (∃ root m', tenOps.foldlM bitmapStep (.zero, mmInit simple) = some (root, m') ∧
      bitmapDeletePrefix root (m'.withOp fun _ _ _ => false) tenSlash24.ip tenSlash24.cidr true =
        none) ∧
    ∃ root m', [Op.insert tenSlash8 1].foldlM bitmapStep (.zero, mmInit simple) = some (root, m') ∧
      (bitmapDeletePrefix root (m'.withOp fun _ _ _ => false) tenSlash8.ip tenSlash8.cidr
        true).isSome := by
  constructor
  · obtain ⟨root, m', hrun, hdelete⟩ :=
      runs_exhausted.1 (mmInit simple) tenOps succeeds_mmInit_simple legal_tenOps
    have hmem : tenSlash24 ∈ (storedMachine IpV4).exec ∅ tenOps := by decide
    have hleft : ((storedMachine IpV4).exec ∅ tenOps).erase tenSlash24 ≠ ∅ := by decide
    obtain ⟨root₁, m₁, root₂, m₂, ret, nhis, units, level, calls, -, -, -, -, -, hunits, hdel⟩ :=
      hdelete tenSlash24 hmem true fun _ _ _ => false
    refine ⟨root, m', hrun, ?_⟩
    rwa [if_neg (not_or.mpr ⟨fun hzero => hleft (hunits.mp hzero), Bool.false_ne_true⟩)] at hdel
  · obtain ⟨root, m', hrun, hdelete⟩ :=
      runs_exhausted.1 (mmInit simple) [Op.insert tenSlash8 1] succeeds_mmInit_simple
        ⟨trivial, trivial⟩
    have hmem : tenSlash8 ∈ (∅ : Stored IpV4).insert tenSlash8 1 :=
      Finmap.mem_insert.mpr (.inl rfl)
    have hlast : ((∅ : Stored IpV4).insert tenSlash8 1).erase tenSlash8 = ∅ := by decide
    obtain ⟨root₁, m₁, root₂, m₂, ret, nhis, units, level, calls, -, -, -, -, -, hunits, hdel⟩ :=
      hdelete tenSlash8 hmem true fun _ _ _ => false
    refine ⟨root, m', hrun, ?_⟩
    rw [if_pos (.inl (hunits.mpr hlast))] at hdel
    exact Option.isSome_iff_exists.mpr ⟨_, hdel⟩

end TreeBitmap
