import TreeBitmap.Delete
import TreeBitmap.Search
import TreeBitmap.Stored

/-!
# The tries refine the map

Every update of a trie is the same update of the map of its prefixes, so that any
run of updates leaves a trie that answers every address as the map does.

## Main definitions

* `trieStep` — one update of a trie; `bitmapStep`, `bitmapv6Step` — of the two engines.
* `Mirrors st T` — the trie holds the map.
* `trieStep_spec` — one update, with what it does to the ledger.
* `bitmap_run_lookup`, `bitmapv6_run_lookup` — **after any run, lookup is
  longest-prefix match**.
-/

namespace TreeBitmap

open LongestMatch Ledger

/-- One update of a trie with its memory manager. -/
def trieStep {α : Type} [IpAddr α] : MbNode × Mm → Op α → Option (MbNode × Mm)
  | (root, m), .insert p nhi => do
      let (root, m, _) ← insertPrefix m root p.ip p.cidr 0 nhi
      some (root, m)
  | (root, m), .delete p destroyNhi => do
      let (root, m, _, _) ← deletePrefix m root p.ip p.cidr destroyNhi
      some (root, m)

/-- One update by the functions of `bitmap_v4.h`. -/
def bitmapStep : MbNode × Mm → Op IpV4 → Option (MbNode × Mm)
  | (root, m), .insert p nhi => do
      let (root, m, _) ← bitmapInsertPrefix root m p.ip p.cidr nhi
      some (root, m)
  | (root, m), .delete p destroyNhi => do
      let (root, m, _, _) ← bitmapDeletePrefix root m p.ip p.cidr destroyNhi
      some (root, m)

/-- One update by the functions of `bitmap_v6.h`. -/
def bitmapv6Step : MbNode × Mm → Op IpV6 → Option (MbNode × Mm)
  | (root, m), .insert p nhi => do
      let (root, m, _) ← bitmapv6InsertPrefix root m p.ip p.cidr nhi
      some (root, m)
  | (root, m), .delete p destroyNhi => do
      let (root, m, _, _) ← bitmapv6DeletePrefix root m p.ip p.cidr destroyNhi
      some (root, m)

theorem bitmapStep_eq : bitmapStep = trieStep := by
  funext ⟨root, m⟩ op
  cases op <;> rfl

theorem bitmapv6Step_eq : bitmapv6Step = trieStep := by
  funext ⟨root, m⟩ op
  cases op <;> rfl

section Step

variable {α : Type} [IpAddr α] [DecidableEq α]

/-- The trie holds the map. -/
structure Mirrors (st : MbNode × Mm) (T : Stored α) : Prop where
  wf : st.1.Wf (IpAddr.LENGTH α)
  get : st.1.get = T.table
  nhis : st.1.nhis 0 = T.values
  succeeds : st.2.Succeeds

theorem mirrors_zero {m : Mm} (hm : m.Succeeds) : Mirrors (.zero, m) (∅ : Stored α) where
  wf := wf_zero _
  get := by
    funext s
    rw [get_zero, table_empty]
  nhis := nhis_zero 0
  succeeds := hm

/-- The trie knows which prefixes are stored. -/
theorem Mirrors.isSome_get_iff {root : MbNode} {m : Mm} {T : Stored α} (h : Mirrors (root, m) T)
    (p : Prefix α) : (root.get p.bits).isSome ↔ p ∈ T := by
  have hget : root.get = T.table := h.get
  rw [hget, Option.isSome_iff_ne_none, mem_iff_table]

/-- The update deletes a prefix that shares its node with nothing, neither in the
node nor below, and the node is not the root. -/
def Prunes (T : Stored α) : Op α → Prop
  | .insert _ _ => False
  | .delete p _ => Solitary T.table p.bits

/-- What an update does to the ledger: the blocks of the trie are exchanged, and a
block gets lost just when a node is pruned. -/
structure Exchanged (T : Stored α) (o : Op α) (st st' : MbNode × Mm) (lost : Multiset Block) :
    Prop where
  op : st'.2.op = st.2.op
  trades : mmBook.Trades st.2 st'.2 (st.1.blocks 0) (st'.1.blocks 0 + lost)
  units : ∀ b ∈ lost, b.units = 0
  kept : ¬ Prunes T o → lost = 0
  pruned : st.2.Grants → Prunes T o → lost ≠ 0

theorem level_zero (α : Type) [IpAddr α] : 0 + IpAddr.LENGTH α / 6 < MAX_LEVEL :=
  level_of_le (le_refl _)

/-- **One update of the trie is one update of the map.** -/
theorem trieStep_spec {st : MbNode × Mm} {T : Stored α} (h : Mirrors st T) (op : Op α)
    (hlegal : (storedMachine α).legal T op) :
    ∃ st' lost, trieStep st op = some st' ∧ Mirrors st' ((storedMachine α).step T op) ∧
      Exchanged T op st st' lost := by
  obtain ⟨root, m⟩ := st
  obtain ⟨hwf, hget, hnhis, hok⟩ := h
  simp only at hwf hget hnhis hok
  cases op with
  | insert p nhi =>
      have hlen : p.bits.length ≤ IpAddr.LENGTH α := p.length_bits ▸ p.cidr_le
      obtain ⟨root', m', hins, hspec⟩ :=
        insertPrefix_spec hok hwf p.spells hlen (level_zero α) nhi
      rw [p.length_bits] at hins
      refine ⟨(root', m'), 0, ?_, ⟨hspec.wf, ?_, ?_, hok.of_op_eq hspec.op⟩, hspec.op, ?_,
        by simp, fun _ => rfl, fun _ h => absurd h id⟩
      · simp only [trieStep, hins, Option.bind_eq_bind, Option.bind_some]
      · exact hspec.get.trans (hget ▸ (table_insert p nhi).symm)
      · have hsum := hspec.nhis
        rw [hget, table_bits, hnhis, ← values_insert] at hsum
        exact add_right_cancel hsum
      · rw [add_zero]
        exact hspec.trades
  | delete p destroyNhi =>
      have hmem : p ∈ T := hlegal
      obtain ⟨v, hv⟩ := Finmap.mem_iff.mp hmem
      have hvget : root.get p.bits = some v := by rw [hget, table_bits, hv]
      obtain ⟨root', m', lost, hdel, hspec⟩ :=
        deletePrefix_spec hok hwf p.spells (le_refl _) hvget destroyNhi
      rw [p.length_bits] at hdel
      refine ⟨(root', m'), lost, ?_, ⟨hspec.wf, ?_, ?_, hok.of_op_eq hspec.op⟩, hspec.op,
        hspec.trades, hspec.units, fun hsol => hspec.kept ?_, fun hg hsol => hspec.pruned hg ?_⟩
      · simp only [trieStep, hdel, Option.bind_eq_bind, Option.bind_some]
      · exact hspec.get.trans (hget ▸ (table_erase p).symm)
      · have hsum := hspec.nhis
        rw [hnhis, values_erase hv, ← Multiset.singleton_add,
          add_comm ({v} : Multiset Nhi)] at hsum
        exact add_right_cancel hsum
      · rwa [hget]
      · rwa [hget]

theorem Mirrors.insertPrefix {root : MbNode} {m : Mm} {T : Stored α} (h : Mirrors (root, m) T)
    (p : Prefix α) (nhi : Nhi) :
    ∃ root' m' ret, insertPrefix m root p.ip p.cidr 0 nhi = some (root', m', ret) ∧
      Mirrors (root', m') (T.insert p nhi) := by
  obtain ⟨⟨root', m'⟩, lost, hstep, hmir, -⟩ := trieStep_spec h (.insert p nhi) trivial
  obtain ⟨⟨_, _, ret⟩, hins, hret⟩ := Option.bind_eq_some_iff.mp hstep
  cases hret
  exact ⟨root', m', ret, hins, hmir⟩

theorem Mirrors.deletePrefix {root : MbNode} {m : Mm} {T : Stored α} (h : Mirrors (root, m) T)
    {p : Prefix α} (hp : p ∈ T) (d : Bool) :
    ∃ root' m' ret calls, deletePrefix m root p.ip p.cidr d = some (root', m', ret, calls) ∧
      Mirrors (root', m') (T.erase p) := by
  obtain ⟨⟨root', m'⟩, lost, hstep, hmir, -⟩ := trieStep_spec h (.delete p d) hp
  obtain ⟨⟨_, _, ret, calls⟩, hdel, hret⟩ := Option.bind_eq_some_iff.mp hstep
  cases hret
  exact ⟨root', m', ret, calls, hdel, hmir⟩

/-- After any run the trie holds the map. -/
theorem exists_trieStep_run {m : Mm} (hm : m.Succeeds) {ops : List (Op α)}
    (hops : (storedMachine α).Legal ∅ ops) :
    ∃ st, ops.foldlM trieStep (.zero, m) = some st ∧ Mirrors st ((storedMachine α).exec ∅ ops) :=
  Run.Machine.refines (fun st T op h hlegal => by
    obtain ⟨st', -, hstep, hmir, -⟩ := trieStep_spec h _ hlegal
    exact ⟨st', hstep, hmir⟩) (mirrors_zero hm) hops

/-- A trie that holds a map answers as the map does. -/
theorem Mirrors.answers {st : MbNode × Mm} {T : Stored α} (h : Mirrors st T) (a : α) :
    ∃ r, doSearch st.1 a = some r ∧ T.Answers a r :=
  ⟨_, doSearch_eq h.wf a, answers_iff.mpr (by rw [h.get])⟩

end Step

/-- **IPv4.**  After any run of updates from the zero root, `bitmap_do_search` returns
the next hop of the longest stored prefix that matches, or `NULL`. -/
theorem bitmap_run_lookup {m : Mm} (hm : m.Succeeds) {ops : List (Op IpV4)}
    (hops : (storedMachine IpV4).Legal ∅ ops) :
    ∃ root m', ops.foldlM bitmapStep (.zero, m) = some (root, m') ∧
      ∀ a, ∃ r, bitmapDoSearch root a = some r ∧
        ((storedMachine IpV4).exec ∅ ops).Answers a r := by
  obtain ⟨⟨root, m'⟩, hrun, hmir⟩ := exists_trieStep_run hm hops
  exact ⟨root, m', bitmapStep_eq ▸ hrun, hmir.answers⟩

theorem bitmap_run_lookup_tenSlash8 :
    ∃ root m', tenOps.foldlM bitmapStep (.zero, mmInit simple) = some (root, m') ∧
      ∀ a, ∃ r, bitmapDoSearch root a = some r ∧
        ((storedMachine IpV4).exec ∅ tenOps).Answers a r :=
  bitmap_run_lookup succeeds_mmInit_simple legal_tenOps

/-- **IPv6.**  The same for `bitmapv6_do_search`. -/
theorem bitmapv6_run_lookup {m : Mm} (hm : m.Succeeds) {ops : List (Op IpV6)}
    (hops : (storedMachine IpV6).Legal ∅ ops) :
    ∃ root m', ops.foldlM bitmapv6Step (.zero, m) = some (root, m') ∧
      ∀ a, ∃ r, bitmapv6DoSearch root a = some r ∧
        ((storedMachine IpV6).exec ∅ ops).Answers a r := by
  obtain ⟨⟨root, m'⟩, hrun, hmir⟩ := exists_trieStep_run hm hops
  exact ⟨root, m', bitmapv6Step_eq ▸ hrun, hmir.answers⟩

theorem bitmapv6_run_lookup_docSlash32 :
    ∃ root m', docOps.foldlM bitmapv6Step (.zero, mmInit simple) = some (root, m') ∧
      ∀ a, ∃ r, bitmapv6DoSearch root a = some r ∧
        ((storedMachine IpV6).exec ∅ docOps).Answers a r :=
  bitmapv6_run_lookup succeeds_mmInit_simple legal_docOps

end TreeBitmap
