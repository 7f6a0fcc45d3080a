import TreeBitmap.Engines
import TreeBitmap.Accounts

/-!
# The books of an engine

The tries of the 8192 entries share one memory manager, `trie->m`; `up_aux` has the other one,
`trie->up_m`.  An entry that is a bare pointer still has the block of the trie it once was, one of
no units.

## Main definitions

* `InitNode.trie`, `entryBlocks` — the tries of the entries, and their blocks.
* `EntryTraded e m e' m'` — an update of an entry, for the ledger.
* `insertEntry_traded`, `insertChild_traded`, `deleteEntry_traded`, `deleteChild_traded` — **each
  of the four updates of an entry exchanges the blocks of its trie**, and no others.
* `EngineBooked` — the books of an engine.
* `EngineAccounted`, `engines_run_accounted` — **every run of an engine is accounted for**.
-/

namespace TreeBitmap

open BitString LongestMatch IpAddr Ledger

/-! ## Entries -/

/-- The trie of an entry, without the pointer that overlays it. -/
def InitNode.trie (e : InitNode) : MbNode := if e.hasChild then e.node else (e.setPtr 0).node

theorem trie_of_hasChild {e : InitNode} (h : e.hasChild = true) : e.trie = e.node := if_pos h

theorem trie_of_not_hasChild {e : InitNode} (h : e.hasChild = false) :
    e.trie = (e.setPtr 0).node := by rw [InitNode.trie, h, if_neg (by decide)]

theorem trie_zero : InitNode.zero.trie = MbNode.zero := trie_of_not_hasChild (by decide)

/-- An update of an entry exchanges the blocks of its trie.  Blocks of no units may get lost. -/
def EntryTraded (e : InitNode) (m : Mm) (e' : InitNode) (m' : Mm) : Prop :=
  ∃ lost : Multiset Block, (∀ b ∈ lost, b.units = 0) ∧
    mmBook.Trades m m' (e.trie.blocks 0) (e'.trie.blocks 0 + lost)

theorem entryTraded_of_trie {e e' : InitNode} (h : e'.trie = e.trie) (m : Mm) :
    EntryTraded e m e' m := by
  refine ⟨0, by simp, ?_⟩
  rw [h, add_zero]
  exact Book.Trades.refl m _

section Updates

variable {α : Type} [IpAddr α] {m m' : Mm} {w : ℕ} {T : Table Bool Nhi} {s p u : List Bool}
  {e e' : InitNode}

theorem Inserted.entryTraded {nhi : Nhi} {n : MbNode} (h : Inserted 0 w u nhi m m' e.trie n)
    (he : e'.trie = n) : EntryTraded e m e' m' := by
  refine ⟨0, by simp, ?_⟩
  rw [he, add_zero]
  exact h.trades

theorem Deleted.entryTraded {v : Nhi} {lost : Multiset Block} {n : MbNode}
    (h : Deleted 0 w u v lost m m' e.trie n) (he : e'.trie = n) : EntryTraded e m e' m' := by
  refine ⟨lost, h.units, ?_⟩
  rw [he]
  exact h.trades

theorem insertEntry_traded (hok : m.Succeeds) (hs : s.length = INITIAL_BITS)
    (hw : w ≤ IpAddr.LENGTH α) (h : Holds w T s e) (hp : p <+: s) {nhi : Nhi}
    (hins : insertEntry α e m p.length nhi = some (e', m')) : EntryTraded e m e' m' := by
  have hk : coverLength T s ≤ INITIAL_BITS := hs ▸ coverLength_le T s
  have hplen : p.length ≤ INITIAL_BITS := hs ▸ hp.length_le
  rw [insertEntry, h.prefixHi hk] at hins
  by_cases hlt : p.length < coverLength T s
  · rw [if_pos hlt, if_pos hlt, ite_self] at hins
    obtain ⟨rfl, rfl⟩ := Prod.mk.inj (Option.some.inj hins)
    exact entryTraded_of_trie rfl m
  · rw [if_neg hlt, if_neg hlt] at hins
    cases hchild : e.hasChild with
    | false =>
        rw [hchild, if_neg (by decide)] at hins
        obtain ⟨rfl, rfl⟩ := Prod.mk.inj (Option.some.inj hins)
        have hchild' : (InitNode.setPtr ⟨prefixFlags p.length, e.node⟩ nhi).hasChild = false :=
          hasChild_pointer hplen rfl
        refine entryTraded_of_trie ?_ m
        rw [trie_of_not_hasChild hchild', trie_of_not_hasChild hchild, node_setPtr_setPtr]
    | true =>
        obtain ⟨-, wf, -, -⟩ := h.of_hasChild hk hchild
        obtain ⟨node, m₁, hnode, hspec⟩ :=
          insertPrefix_spec hok wf (spells_zero (α := α)) (Nat.zero_le w) (level_of_le hw) nhi
        rw [List.length_nil] at hnode
        rw [hchild, if_pos rfl] at hins
        simp only [hnode, Option.bind_eq_bind, Option.bind_some] at hins
        obtain ⟨rfl, rfl⟩ := Prod.mk.inj (Option.some.inj hins)
        have hchild' : InitNode.hasChild ⟨prefixFlags p.length ||| INIT_HAS_A_CHILD, node⟩ = true :=
          hasChild_trie hplen rfl
        rw [← trie_of_hasChild hchild] at hspec
        exact hspec.entryTraded (trie_of_hasChild hchild')

/-- A prefix longer than the index goes into a trie. -/
theorem insertTrie_traded (hok : m.Succeeds) (hs : s.length = INITIAL_BITS)
    (hw : w ≤ IpAddr.LENGTH α) (hwf : e.trie.Wf w) {ip : α} (hip : Spells ip (s ++ u))
    (huw : u.length ≤ w) (nhi : Nhi) :
    ∃ node m' ret, insertPrefix m e.trie (lshift ip INITIAL_BITS) u.length 0 nhi =
        some (node, m', ret) ∧ ∀ e' : InitNode, e'.trie = node → EntryTraded e m e' m' := by
  have hip' := (spells_lshift_INITIAL_BITS hs hip).1
  obtain ⟨node, m', hins, hspec⟩ := insertPrefix_spec hok hwf hip' huw (level_of_le hw) nhi
  exact ⟨node, m', _, hins, fun e' he => hspec.entryTraded he⟩

theorem EntryTraded.trans {e₁ : InitNode} {m₁ : Mm} (h : EntryTraded e m e₁ m₁)
    (h' : EntryTraded e₁ m₁ e' m') : EntryTraded e m e' m' := by
  obtain ⟨lost, hunits, htrades⟩ := h
  obtain ⟨lost', hunits', htrades'⟩ := h'
  refine ⟨lost + lost', fun b hb => ?_, ?_⟩
  · rcases Multiset.mem_add.mp hb with hb | hb
    · exact hunits b hb
    · exact hunits' b hb
  · refine htrades.trans (((htrades'.frame lost).congr (add_comm _ _) rfl).congr rfl ?_)
    rw [add_left_comm, add_comm lost]

/-- A pointer becomes a trie. -/
theorem insertPointer_traded (hok : m.Succeeds) (hw : w ≤ IpAddr.LENGTH α) (h : Holds w T s e)
    (hchild : e.hasChild = false) (hk : coverLength T s ≤ INITIAL_BITS) (hnil : T [] = none)
    {e₁ : InitNode} {m₁ : Mm}
    (hmake : (if 0 < e.prefixHi then do
        let info := e.ptr
        let e := e.setPtr 0
        let (node, m, _) ← insertPrefix m e.node (IpAddr.zero : α) 0 0 info
        some ({ e with node := node }, m)
      else some (e, m)) = some (e₁, m₁)) (htrie : e'.trie = e₁.node) : EntryTraded e m e' m₁ := by
  obtain ⟨flags, -, ptr, wf, -⟩ := h.of_not_hasChild hk hchild
  rw [← trie_of_not_hasChild hchild] at wf
  rw [prefixHi_pointer hk flags] at hmake
  by_cases hzero : coverLength T s = 0
  · rw [lpm_of_coverLength_eq_zero hnil hzero, Option.getD_none] at ptr
    rw [hzero, if_neg (lt_irrefl 0)] at hmake
    obtain ⟨rfl, rfl⟩ := Prod.mk.inj (Option.some.inj hmake)
    refine entryTraded_of_trie ?_ m
    rw [htrie, trie_of_not_hasChild hchild, node_setPtr_of_external ptr]
  · obtain ⟨node, m', hins, hspec⟩ := insertPrefix_spec hok wf (spells_zero (α := α))
      (Nat.zero_le w) (level_of_le hw) e.ptr
    rw [List.length_nil, trie_of_not_hasChild hchild] at hins
    rw [if_pos (Nat.pos_of_ne_zero hzero)] at hmake
    simp only [hins, Option.bind_eq_bind, Option.bind_some] at hmake
    obtain ⟨rfl, rfl⟩ := Prod.mk.inj (Option.some.inj hmake)
    exact hspec.entryTraded htrie

theorem insertChild_traded (hok : m.Succeeds) (hs : s.length = INITIAL_BITS)
    (hw : w ≤ IpAddr.LENGTH α) (h : Holds w T s e) (hnil : T [] = none) {ip : α}
    (hip : Spells ip (s ++ u)) (huw : u.length ≤ w) {nhi : Nhi}
    (hins : insertChild e m ip (s ++ u).length nhi = some (e', m')) : EntryTraded e m e' m' := by
  have hk : coverLength T s ≤ INITIAL_BITS := hs ▸ coverLength_le T s
  rw [insertChild, (spells_lshift_INITIAL_BITS hs hip).2] at hins
  cases hchild : e.hasChild with
  | true =>
      obtain ⟨-, wf, -, -⟩ := h.of_hasChild hk hchild
      have htrie := trie_of_hasChild hchild
      obtain ⟨node, m₁, ret, hnode, htraded⟩ :=
        insertTrie_traded hok hs hw (htrie.symm ▸ wf) hip huw nhi
      rw [htrie] at hnode
      rw [hchild, if_pos rfl] at hins
      simp only [hnode, Option.bind_eq_bind, Option.bind_some] at hins
      obtain ⟨rfl, rfl⟩ := Prod.mk.inj (Option.some.inj hins)
      exact htraded _ (trie_of_hasChild hchild)
  | false =>
      obtain ⟨e₁, m₁, hmake, hop₁, hflags, hwf, -⟩ :=
        insertPointer_spec (α := α) hok hw h hchild hk hnil
      have hchild₂ : InitNode.hasChild ⟨e₁.flags ||| INIT_HAS_A_CHILD, e₁.node⟩ = true :=
        hasChild_trie hk (by rw [hflags])
      have htrie₂ := trie_of_hasChild hchild₂
      obtain ⟨node, m₂, ret, hnode, htraded⟩ :=
        insertTrie_traded (hok.of_op_eq hop₁) hs hw (htrie₂.symm ▸ hwf) hip huw nhi
      rw [htrie₂] at hnode
      rw [hchild, if_neg (by decide), hmake] at hins
      simp only [hnode, Option.bind_eq_bind, Option.bind_some] at hins
      obtain ⟨rfl, rfl⟩ := Prod.mk.inj (Option.some.inj hins)
      exact (insertPointer_traded hok hw h hchild hk hnil hmake htrie₂).trans
        (htraded _ (trie_of_hasChild hchild₂))

/-- A pointer has the trie of the entry it is put into. -/
theorem trie_setPtr {flags : BitVec 32} {k : ℕ} (hk : k ≤ INITIAL_BITS)
    (hflags : flags = prefixFlags k) (hchild : e.hasChild = false) (a : Nhi) :
    (InitNode.setPtr ⟨flags, e.node⟩ a).trie = e.trie := by
  have hchild' : (InitNode.setPtr ⟨flags, e.node⟩ a).hasChild = false := hasChild_pointer hk hflags
  rw [trie_of_not_hasChild hchild', trie_of_not_hasChild hchild, node_setPtr_setPtr]

/-- An entry whose trie has become empty still has the block of it. -/
theorem trie_setPtr_of_isEmpty {flags : BitVec 32} {k : ℕ} {n : MbNode} (hk : k ≤ INITIAL_BITS)
    (hflags : flags = prefixFlags k) (h : n.isEmpty) (a : Nhi) :
    (InitNode.setPtr ⟨flags, n⟩ a).trie = n := by
  have hchild : (InitNode.setPtr ⟨flags, n⟩ a).hasChild = false := hasChild_pointer hk hflags
  rw [trie_of_not_hasChild hchild]
  exact node_setPtr_of_external (e := ⟨flags, n⟩) (isEmpty_external h)

theorem deleteEntry_traded (hok : m.Succeeds) (hs : s.length = INITIAL_BITS)
    (hw : w ≤ IpAddr.LENGTH α) (h : Holds w T s e) (hp : p <+: s) {v : Nhi} (hv : T p = some v)
    {near : ℕ} (hnear : near ≤ INITIAL_BITS) {nhiNear : Nhi} {d d' : Bool} {calls : List Nhi}
    (hdel : deleteEntry α e m p.length near nhiNear d = some (e', m', d', calls)) :
    EntryTraded e m e' m' := by
  have hk : coverLength T s ≤ INITIAL_BITS := hs ▸ coverLength_le T s
  rw [deleteEntry, h.u8_prefixHi hk] at hdel
  by_cases hlt : p.length < coverLength T s
  · simp only [if_pos hlt, ite_self] at hdel
    obtain ⟨rfl, hrest⟩ := Prod.mk.inj (Option.some.inj hdel)
    obtain ⟨rfl, -⟩ := Prod.mk.inj hrest
    exact entryTraded_of_trie rfl m
  · simp only [if_neg hlt] at hdel
    cases hchild : e.hasChild with
    | false =>
        rw [hchild, if_neg (by decide)] at hdel
        split at hdel
        · obtain ⟨rfl, hrest⟩ := Prod.mk.inj (Option.some.inj hdel)
          obtain ⟨rfl, -⟩ := Prod.mk.inj hrest
          exact entryTraded_of_trie
            (trie_setPtr (Nat.zero_le _) prefixFlags_zero.symm hchild 0) m
        · obtain ⟨rfl, hrest⟩ := Prod.mk.inj (Option.some.inj hdel)
          obtain ⟨rfl, -⟩ := Prod.mk.inj hrest
          exact entryTraded_of_trie (trie_setPtr hnear rfl hchild nhiNear) m
    | true =>
        obtain ⟨-, wf, get, full⟩ := h.of_hasChild hk hchild
        have hgetv : e.node.get [] = some v := by
          rw [get, pushed_nil, lpm, longest_of_coverLength_le hp hv (not_lt.mp hlt)]
          rfl
        rw [hchild, if_pos rfl] at hdel
        by_cases hzero : near = 0
        · obtain ⟨node, m₁, lost, hnode, hspec⟩ :=
            deletePrefix_spec hok wf (spells_zero (α := α)) hw hgetv d
          rw [List.length_nil] at hnode
          rw [if_pos hzero] at hdel
          simp only [hnode, Option.bind_eq_bind, Option.bind_some] at hdel
          rw [← trie_of_hasChild hchild] at hspec
          by_cases hempty : node.isEmpty
          · rw [if_neg (not_not.mpr hempty)] at hdel
            obtain ⟨rfl, hrest⟩ := Prod.mk.inj (Option.some.inj hdel)
            obtain ⟨rfl, -⟩ := Prod.mk.inj hrest
            exact hspec.entryTraded (trie_setPtr_of_isEmpty (Nat.zero_le _)
              prefixFlags_zero.symm hempty 0)
          · rw [if_pos hempty] at hdel
            obtain ⟨rfl, hrest⟩ := Prod.mk.inj (Option.some.inj hdel)
            obtain ⟨rfl, -⟩ := Prod.mk.inj hrest
            refine hspec.entryTraded (trie_of_hasChild (e := ⟨0 ||| INIT_HAS_A_CHILD, node⟩) ?_)
            exact hasChild_trie (Nat.zero_le _) (by rw [prefixFlags_zero])
        · -- the next hop is exchanged in its place
          rw [if_neg hzero] at hdel
          simp only [traverseBranch_overlapNhi wf.layout hgetv, Option.bind_eq_bind,
            Option.bind_some] at hdel
          obtain ⟨rfl, hrest⟩ := Prod.mk.inj (Option.some.inj hdel)
          obtain ⟨rfl, -⟩ := Prod.mk.inj hrest
          have hchild' : InitNode.hasChild
              ⟨prefixFlags near ||| INIT_HAS_A_CHILD, e.node.putRule 0 nhiNear⟩ = true :=
            hasChild_trie hnear rfl
          refine ⟨0, by simp, ?_⟩
          rw [trie_of_hasChild hchild, trie_of_hasChild hchild', add_zero, blocks_eq, blocks_eq,
            inner_putRule]
          exact Book.Trades.refl m _

theorem deleteChild_traded (hok : m.Succeeds) (hs : s.length = INITIAL_BITS)
    (hw : w ≤ IpAddr.LENGTH α) (h : Holds w T s e) {upAux : MbNode}
    (haux : upAux.Wf (IpAddr.LENGTH α)) (hget : upAux.get = T) (hnil : T [] = none) {ip : α}
    (hip : Spells ip (s ++ u)) (hu : u ≠ []) {v : Nhi} (hv : T (s ++ u) = some v) {d : Bool}
    {calls : List Nhi}
    (hdel : deleteChild e m upAux ip (s ++ u).length d = some (e', m', calls)) :
    EntryTraded e m e' m' := by
  have hk : coverLength T s ≤ INITIAL_BITS := hs ▸ coverLength_le T s
  obtain ⟨hip', hlen⟩ := spells_lshift_INITIAL_BITS hs hip
  cases h with
  | pointer flags long =>
      rw [long u hu] at hv
      cases hv
  | trie flags wf get full =>
      have hchild := hasChild_trie hk flags
      have hgetv : e.node.get u = some v := by rw [get, pushed_of_ne_nil T s hu, hv]
      obtain ⟨node, m₁, lost, hnode, hspec⟩ := deletePrefix_spec hok wf hip' hw hgetv d
      rw [deleteChild, hchild, if_pos rfl, hlen] at hdel
      simp only [hnode, Option.bind_eq_bind, Option.bind_some] at hdel
      rw [← trie_of_hasChild hchild] at hspec
      by_cases hempty : node.isEmpty
      · -- whatever `up_aux` holds in its place, the block stays with the entry
        have hdetect := detectOverlapGeneric_near haux (by rw [hget, hnil]) hip INITIAL_BITS
        have hle := coverLength_le upAux.get ((s ++ u).take (min (s ++ u).length INITIAL_BITS - 1))
        have hnear := hle.trans (List.length_take_le _ _)
        rw [if_pos hempty, hdetect] at hdel
        simp only [Option.bind_some] at hdel
        split at hdel
        · obtain ⟨rfl, hrest⟩ := Prod.mk.inj (Option.some.inj hdel)
          obtain ⟨rfl, -⟩ := Prod.mk.inj hrest
          exact hspec.entryTraded (trie_setPtr_of_isEmpty (Nat.zero_le _) prefixFlags_zero.symm
            hempty 0)
        · obtain ⟨rfl, hrest⟩ := Prod.mk.inj (Option.some.inj hdel)
          obtain ⟨rfl, -⟩ := Prod.mk.inj hrest
          exact hspec.entryTraded (trie_setPtr_of_isEmpty (by omega) rfl hempty _)
      · rw [if_neg hempty] at hdel
        obtain ⟨rfl, hrest⟩ := Prod.mk.inj (Option.some.inj hdel)
        obtain ⟨rfl, -⟩ := Prod.mk.inj hrest
        exact hspec.entryTraded (trie_of_hasChild hchild)

end Updates

/-! ## The engine -/

/-- The blocks of the tries of all entries. -/
def entryBlocks (init : InitTable) : Multiset Block := ∑ x, (init x).trie.blocks 0

/-- An update of the table, for the ledger. -/
def EngineTraded (trie trie' : TbmTrie) : Prop :=
  ∃ lost : Multiset Block, (∀ b ∈ lost, b.units = 0) ∧
    mmBook.Trades trie.m trie'.m (entryBlocks trie.init) (entryBlocks trie'.init + lost)

theorem engineTraded_refl (trie : TbmTrie) : EngineTraded trie trie := by
  refine ⟨0, by simp, ?_⟩
  rw [add_zero]
  exact Book.Trades.refl _ _

theorem EngineTraded.trans {trie trie₁ trie₂ : TbmTrie} (h : EngineTraded trie trie₁)
    (h' : EngineTraded trie₁ trie₂) : EngineTraded trie trie₂ := by
  obtain ⟨lost, hunits, htrades⟩ := h
  obtain ⟨lost', hunits', htrades'⟩ := h'
  refine ⟨lost + lost', fun b hb => ?_, ?_⟩
  · rcases Multiset.mem_add.mp hb with hb | hb
    · exact hunits b hb
    · exact hunits' b hb
  · refine htrades.trans (((htrades'.frame lost).congr (add_comm _ _) rfl).congr rfl ?_)
    rw [add_left_comm, add_comm lost]

/-- The blocks of one entry, and those of the others. -/
theorem entryBlocks_eq (init : InitTable) (x : Fin (2 ^ INITIAL_BITS)) :
    entryBlocks init =
      ∑ y ∈ Finset.univ.erase x, (init y).trie.blocks 0 + (init x).trie.blocks 0 :=
  (Finset.sum_erase_add _ _ (Finset.mem_univ x)).symm

theorem entryBlocks_setEntry (trie : TbmTrie) (x : Fin (2 ^ INITIAL_BITS)) (e : InitNode)
    (m : Mm) :
    entryBlocks (trie.setEntry x e m).init =
      ∑ y ∈ Finset.univ.erase x, (trie.init y).trie.blocks 0 + e.trie.blocks 0 := by
  have hothers : ∀ y ∈ Finset.univ.erase x,
      ((trie.setEntry x e m).init y).trie.blocks 0 = (trie.init y).trie.blocks 0 := by
    intro y hy
    rw [init_setEntry, Function.update_of_ne (Finset.ne_of_mem_erase hy)]
  rw [entryBlocks_eq _ x, Finset.sum_congr rfl hothers, init_setEntry, Function.update_self]

/-- **An update of one entry leaves the others their blocks.** -/
theorem EntryTraded.engine {trie : TbmTrie} {x : Fin (2 ^ INITIAL_BITS)} {e : InitNode} {m : Mm}
    (h : EntryTraded (trie.init x) trie.m e m) : EngineTraded trie (trie.setEntry x e m) := by
  obtain ⟨lost, hunits, htrades⟩ := h
  refine ⟨lost, hunits, ?_⟩
  rw [entryBlocks_setEntry, entryBlocks_eq trie.init x, add_assoc]
  exact htrades.frame _

section Engine

variable {α : Type} [IpAddr α] [DecidableEq α] {trie trie' : TbmTrie} {T : Stored α}

/-- The loop of `tbm_insert_prefix`. -/
theorem insertSweep_traded (h : Pushes trie T) {p : Prefix α} (hp : p.cidr ≤ INITIAL_BITS)
    {nhi : Nhi} (hrun : insertSweep trie p.ip p.cidr nhi = some trie') :
    EngineTraded trie trie' := by
  have hlen : p.bits.length ≤ INITIAL_BITS := p.length_bits ▸ hp
  rw [insertSweep, Nat.one_shiftLeft, ← p.length_bits] at hrun
  refine (Run.foldlM_range_of_eq_some (fun i t =>
    Swept (IpAddr.LENGTH α - INITIAL_BITS) (Function.update T.table p.bits (some nhi))
      (value p.bits * 2 ^ (INITIAL_BITS - p.bits.length)) i trie t ∧ EngineTraded trie t)
    ⟨swept_zero _ _ _ trie, engineTraded_refl trie⟩ ?_ hrun).2
  intro i t t' hi ht hstep
  obtain ⟨hswept, htraded⟩ := ht
  obtain ⟨x, hindex, hx, hpre⟩ := exists_initIndex_add hlen hi
  have hentry : Holds (IpAddr.LENGTH α - INITIAL_BITS) T.table (indexBits x) (t.init x) := by
    rw [hswept.rest x (by omega)]
    exact h.entries x
  have hok := h.succeeds.of_op_eq hswept.op
  obtain ⟨e, m, hins, hop, he⟩ := insertEntry_spec hok (length_indexBits x)
    (sub_INITIAL_BITS_le α) hentry hpre nhi
  rw [p.spells.indexOf_eq hlen, hindex] at hstep
  simp only [hins, Option.bind_eq_bind, Option.bind_some] at hstep
  obtain rfl := Option.some.inj hstep
  have hupdate := insertEntry_traded hok (length_indexBits x) (sub_INITIAL_BITS_le α) hentry hpre
    hins
  exact ⟨hswept.step x hx hop he, htraded.trans hupdate.engine⟩

/-- The loop of `tbm_delete_prefix`. -/
theorem deleteSweep_traded (h : Pushes trie T) {p : Prefix α} (hp : p.cidr ≤ INITIAL_BITS)
    {v : Nhi} (hv : T.lookup p = some v) {d d' : Bool} {calls : List Nhi}
    (hrun : deleteSweep trie p.ip p.cidr (coverLength T.table p.bits.dropLast)
      ((lpm T.table p.bits.dropLast).getD 0) d = some (trie', d', calls)) :
    EngineTraded trie trie' := by
  have hlen : p.bits.length ≤ INITIAL_BITS := p.length_bits ▸ hp
  have hbits : T.table p.bits = some v := (table_bits p).trans hv
  have hnear : coverLength T.table p.bits.dropLast ≤ INITIAL_BITS :=
    (coverLength_le _ _).trans ((List.dropLast_prefix p.bits).length_le.trans hlen)
  rw [deleteSweep, Nat.one_shiftLeft, ← p.length_bits] at hrun
  refine (Run.foldlM_range_of_eq_some (fun i (st : TbmTrie × Bool × List Nhi) =>
    Swept (IpAddr.LENGTH α - INITIAL_BITS) (Function.update T.table p.bits none)
      (value p.bits * 2 ^ (INITIAL_BITS - p.bits.length)) i trie st.1 ∧ EngineTraded trie st.1)
    ⟨swept_zero _ _ _ trie, engineTraded_refl trie⟩ ?_ hrun).2
  intro i st st' hi hst hstep
  obtain ⟨t, d₁, calls₁⟩ := st
  obtain ⟨hswept, htraded⟩ := hst
  obtain ⟨x, hindex, hx, hpre⟩ := exists_initIndex_add hlen hi
  have hentry : Holds (IpAddr.LENGTH α - INITIAL_BITS) T.table (indexBits x) (t.init x) := by
    rw [hswept.rest x (by omega)]
    exact h.entries x
  have hok := h.succeeds.of_op_eq hswept.op
  obtain ⟨e, m, hdel, hop, he⟩ := deleteEntry_spec hok (length_indexBits x)
    (sub_INITIAL_BITS_le α) hentry h.table_nil hpre hbits d₁
  rw [p.spells.indexOf_eq hlen, hindex] at hstep
  simp only [hdel, Option.bind_eq_bind, Option.bind_some] at hstep
  obtain rfl := Option.some.inj hstep
  have hupdate := deleteEntry_traded hok (length_indexBits x) (sub_INITIAL_BITS_le α) hentry hpre
    hbits hnear hdel
  exact ⟨hswept.step x hx hop he, htraded.trans hupdate.engine⟩

/-- **`tbm_insert_prefix` exchanges blocks**, in both managers. -/
theorem tbmInsert_traded (h : Pushes trie T) {p : Prefix α} (hp : 1 ≤ p.cidr) {nhi : Nhi}
    {ret : ℤ} (hins : tbmInsert trie p.ip p.cidr nhi = some (trie', ret)) :
    EngineTraded trie trie' ∧ ∃ more,
      Exchanged T (.insert p nhi) (trie.upAux, trie.upM) (trie'.upAux, trie'.upM) more := by
  obtain ⟨⟨upAux, upM⟩, more, hstep, -, hex⟩ := trieStep_spec h.aux (.insert p nhi) trivial
  obtain ⟨⟨_, _, ret'⟩, haux, hret⟩ := Option.bind_eq_some_iff.mp hstep
  obtain ⟨rfl, rfl⟩ := Prod.mk.inj (Option.some.inj hret)
  rw [tbmInsert, if_neg (by omega)] at hins
  by_cases hshort : p.cidr ≤ INITIAL_BITS
  · obtain ⟨trie₁, hloop, hswept⟩ := insertSweep_spec h hshort nhi
    rw [if_pos hshort, hloop] at hins
    simp only [Option.bind_eq_bind, Option.bind_some, hswept.upAux, hswept.upM, haux] at hins
    obtain ⟨rfl, -⟩ := Prod.mk.inj (Option.some.inj hins)
    have hsweep := insertSweep_traded h hshort hloop
    exact ⟨hsweep, more, hex⟩
  · obtain ⟨x, u, hindex, hbits, hu, huw⟩ := exists_entry (not_le.mp hshort)
    obtain ⟨e, m, hchild, -⟩ := insertChild_spec h.succeeds (length_indexBits x)
      (sub_INITIAL_BITS_le α) (h.entries x) h.table_nil (hbits ▸ p.spells) hu huw nhi
    have htraded := insertChild_traded h.succeeds (length_indexBits x) (sub_INITIAL_BITS_le α)
      (h.entries x) h.table_nil (hbits ▸ p.spells) huw hchild
    rw [← hbits, p.length_bits] at hchild
    rw [if_neg hshort, hindex] at hins
    simp only [hchild, Option.bind_eq_bind, Option.bind_some, TbmTrie.setEntry, haux] at hins
    obtain ⟨rfl, -⟩ := Prod.mk.inj (Option.some.inj hins)
    exact ⟨htraded.engine, more, hex⟩

/-- **So does `tbm_delete_prefix`.** -/
theorem tbmDelete_traded (h : Pushes trie T) {p : Prefix α} {v : Nhi} (hv : T.lookup p = some v)
    {d : Bool} {ret : ℤ} {calls : List Nhi}
    (hdel : tbmDelete trie p.ip p.cidr d = some (trie', ret, calls)) :
    EngineTraded trie trie' ∧ ∃ more,
      Exchanged T (.delete p d) (trie.upAux, trie.upM) (trie'.upAux, trie'.upM) more := by
  have hmem := Finmap.mem_of_lookup_eq_some hv
  have hbits : T.table p.bits = some v := (table_bits p).trans hv
  have hp := h.pos p hmem
  have hauxget : trie.upAux.get = T.table := h.aux.get
  obtain ⟨⟨upAux, upM⟩, more, hstep, -, hex⟩ := trieStep_spec h.aux (.delete p false) hmem
  obtain ⟨⟨_, _, _, _⟩, haux, hret⟩ := Option.bind_eq_some_iff.mp hstep
  obtain ⟨rfl, rfl⟩ := Prod.mk.inj (Option.some.inj hret)
  rw [tbmDelete, if_neg (by omega)] at hdel
  by_cases hshort : p.cidr ≤ INITIAL_BITS
  · obtain ⟨⟨trie₁, d', calls₁⟩, hloop, hswept, -⟩ := deleteSweep_spec h hshort hv d
    have hupAux : trie₁.upAux = trie.upAux := hswept.upAux
    have hupM : trie₁.upM = trie.upM := hswept.upM
    rw [if_pos hshort, h.detectOverlap_eq hshort] at hdel
    simp only [Option.bind_eq_bind, Option.bind_some, hloop, hupAux, hupM, haux] at hdel
    obtain ⟨rfl, -⟩ := Prod.mk.inj (Option.some.inj hdel)
    have hsweep := deleteSweep_traded h hshort hv hloop
    exact ⟨hsweep, more, hex.op, hex.trades, hex.units, hex.kept, hex.pruned⟩
  · obtain ⟨x, u, hindex, hsplit, hu, -⟩ := exists_entry (not_le.mp hshort)
    obtain ⟨e, m, hchild, -⟩ := deleteChild_spec h.succeeds (length_indexBits x)
      (sub_INITIAL_BITS_le α) (h.entries x) h.table_nil h.aux.wf hauxget (hsplit ▸ p.spells) hu
      (hsplit ▸ hbits) d
    have htraded := deleteChild_traded h.succeeds (length_indexBits x) (sub_INITIAL_BITS_le α)
      (h.entries x) h.aux.wf hauxget h.table_nil (hsplit ▸ p.spells) hu (hsplit ▸ hbits) hchild
    rw [← hsplit, p.length_bits] at hchild
    rw [if_neg hshort, hindex] at hdel
    simp only [hchild, Option.bind_eq_bind, Option.bind_some, TbmTrie.setEntry, haux] at hdel
    obtain ⟨rfl, -⟩ := Prod.mk.inj (Option.some.inj hdel)
    exact ⟨htraded.engine, more, hex.op, hex.trades, hex.units, hex.kept, hex.pruned⟩

theorem leafStep_traded (h : Pushes trie T) {op : Op α} (hlegal : (tbmMachine α).legal T op)
    (hstep : leafStep trie op = some trie') :
    EngineTraded trie trie' ∧ ∃ more,
      Exchanged T op (trie.upAux, trie.upM) (trie'.upAux, trie'.upM) more := by
  obtain ⟨hpos, hlegal⟩ := hlegal
  cases op with
  | insert p nhi =>
      have hp : 1 ≤ p.cidr := hpos
      obtain ⟨⟨trie₁, ret⟩, hins, hret⟩ := Option.bind_eq_some_iff.mp hstep
      obtain rfl := Option.some.inj hret
      exact tbmInsert_traded h hp hins
  | delete p destroyNhi =>
      have hmem : p ∈ T := hlegal
      obtain ⟨v, hv⟩ := Finmap.mem_iff.mp hmem
      obtain ⟨⟨trie₁, ret, calls⟩, hdel, hret⟩ := Option.bind_eq_some_iff.mp hstep
      obtain rfl := Option.some.inj hret
      exact tbmDelete_traded h hv hdel

/-! ## Runs -/

/-- The books of both memory managers. -/
structure EngineBooked (trie : TbmTrie) : Prop where
  aux : ∃ q lost, Booked (trie.upAux, trie.upM) q lost
  sound : trie.m.Sound
  live : ∃ lost : Multiset Block, (∀ b ∈ lost, b.units = 0) ∧
    trie.m.live = entryBlocks trie.init + lost

theorem engineBooked_init : EngineBooked tbmInitTrie where
  aux := ⟨True, 0, booked_zero simple⟩
  sound := sound_mmInit simple
  live := by
    have hblocks : entryBlocks tbmInitTrie.init = 0 :=
      Finset.sum_eq_zero fun _ _ => (congrArg _ trie_zero).trans (blocks_zero 0)
    exact ⟨0, by simp, by rw [hblocks]; exact live_mmInit simple⟩

theorem EngineBooked.step (h : EngineBooked trie) (hpush : Pushes trie T) {op : Op α}
    (hlegal : (tbmMachine α).legal T op) (hstep : leafStep trie op = some trie') :
    EngineBooked trie' := by
  obtain ⟨⟨lost', hunits', htrades⟩, more, hex⟩ := leafStep_traded hpush hlegal hstep
  obtain ⟨q, aux, haux⟩ := h.aux
  obtain ⟨lost, hunits, hlive⟩ := h.live
  obtain ⟨hsound', hlive'⟩ := htrades lost h.sound (hlive.trans (add_comm _ _))
  refine ⟨⟨_, _, haux.step hex⟩, hsound', lost + lost', fun b hb => ?_, ?_⟩
  · rcases Multiset.mem_add.mp hb with hb | hb
    · exact hunits b hb
    · exact hunits' b hb
  · rw [add_left_comm]
    exact hlive'

/-- **The books of an engine after any run.** -/
theorem exists_engineBooked_run {ops : List (Op α)} (hops : (tbmMachine α).Legal ∅ ops) :
    ∃ trie, ops.foldlM leafStep tbmInitTrie = some trie ∧
      Pushes trie ((tbmMachine α).exec ∅ ops) ∧ EngineBooked trie := by
  have hstep : ∀ trie T op, Pushes trie T ∧ EngineBooked trie → (tbmMachine α).legal T op →
      ∃ trie', leafStep trie op = some trie' ∧
        Pushes trie' ((tbmMachine α).step T op) ∧ EngineBooked trie' := by
    intro trie T op hR hlegal
    obtain ⟨hpush, hbook⟩ := hR
    obtain ⟨trie', hrun, hpush'⟩ := leafStep_spec hpush hlegal
    exact ⟨trie', hrun, hpush', hbook.step hpush hlegal hrun⟩
  exact Run.Machine.refines (R := fun trie T => Pushes trie T ∧ EngineBooked trie) hstep
    ⟨pushes_init, engineBooked_init⟩ hops

end Engine

/-- The counters show `units l` units at level `l`, modulo `2 ^ 32`. -/
structure MemStat.Shows (units : ℕ → ℕ) (ms : MemStat) : Prop where
  lnode : ∀ l : Fin MAX_LEVEL, ms.lnode l = BitVec.ofNat 32 (units l)
  lmem : ∀ l : Fin MAX_LEVEL, ms.lmem l = BitVec.ofNat 32 (units l * NODE_SIZE)
  node : ms.node = BitVec.ofNat 32 (∑ l : Fin MAX_LEVEL, units l)
  mem : ms.mem = BitVec.ofNat 32 (∑ l : Fin MAX_LEVEL, units l * NODE_SIZE)

/-- The calls and the counters of a memory manager are as they have to be: a block that was given
back had been handed out for that count at that level and not been given back since, and the
counters show `units l` units at level `l`, modulo `2 ^ 32`. -/
structure AccountedFor (units : ℕ → ℕ) (m : Mm) : Prop where
  disciplined : ∀ later nodeNum level p earlier,
    m.calls = later ++ .dealloc nodeNum level p :: earlier →
      ⟨p, nodeNum, level⟩ ∈ Ledger.live (earlier.filterMap MmCall.event)
  counters : m.ms.Shows units

theorem ofNat_sum (f : Fin MAX_LEVEL → ℕ) :
    BitVec.ofNat 32 (∑ l, f l) = ∑ l, BitVec.ofNat 32 (f l) := by
  simp only [← BitVec.natCast_eq_ofNat, Nat.cast_sum]

theorem Mm.Sound.accountedFor {m : Mm} (h : m.Sound) {units : ℕ → ℕ}
    (hunits : ∀ l, unitsAt m.live l = units l) : AccountedFor units m := by
  have hlnode : ∀ l : Fin MAX_LEVEL, m.ms.lnode l = BitVec.ofNat 32 (units l) := by
    intro l
    rw [h.counts.lnode, hunits]
  have hlmem : ∀ l : Fin MAX_LEVEL, m.ms.lmem l = BitVec.ofNat 32 (units l * NODE_SIZE) := by
    intro l
    rw [h.counts.lmem, hlnode, BitVec.ofNat_mul]
  refine ⟨fun _ _ _ _ _ => disciplined_call h.disciplined, hlnode, hlmem, ?_, ?_⟩
  · rw [h.counts.node, ofNat_sum]
    exact Finset.sum_congr rfl fun l _ => hlnode l
  · rw [h.counts.mem, ofNat_sum]
    exact Finset.sum_congr rfl fun l _ => hlmem l

/-- The units of all entries at one depth. -/
def entryUnits (init : InitTable) (d : ℕ) : ℕ := ∑ x, (init x).trie.unitsAtDepth d

/-- Only these blocks are out, and blocks of no units. -/
def Mm.HoldsOnly (m : Mm) (blocks : Multiset Block) : Prop :=
  ∃ lost, m.live = blocks + lost ∧ ∀ b ∈ lost, b.units = 0

/-- Both memory managers of an engine are accounted for: `up_m` by the trie `up_aux`, and `m` by
the tries of the entries. -/
structure EngineAccounted (trie : TbmTrie) : Prop where
  aux : AccountedFor (fun d => trie.upAux.unitsAtDepth d) trie.upM
  entries : AccountedFor (entryUnits trie.init) trie.m
  auxLive : trie.upM.HoldsOnly (trie.upAux.blocks 0)
  entriesLive : trie.m.HoldsOnly (entryBlocks trie.init)

section Engine

variable {α : Type} [IpAddr α] [DecidableEq α] {trie : TbmTrie} {T : Stored α}

theorem Pushes.wf_trie (h : Pushes trie T) (x : Fin (2 ^ INITIAL_BITS)) :
    (trie.init x).trie.Wf (IpAddr.LENGTH α - INITIAL_BITS) := by
  have hk := coverLength_indexBits_le T.table x
  cases hchild : (trie.init x).hasChild with
  | true => exact (trie_of_hasChild hchild).symm ▸ h.wf_of_hasChild hchild
  | false =>
      rw [trie_of_not_hasChild hchild]
      exact ((h.entries x).of_not_hasChild hk hchild).2.2.2.1

theorem unitsAt_finset_sum {ι : Type} (s : Finset ι) (f : ι → Multiset Block) (l : ℕ) :
    unitsAt (∑ x ∈ s, f x) l = ∑ x ∈ s, unitsAt (f x) l := by
  classical
  induction s using Finset.induction_on with
  | empty => rfl
  | insert x s hx ih => rw [Finset.sum_insert hx, Finset.sum_insert hx, unitsAt_add, ih]

theorem Pushes.unitsAt_entryBlocks (h : Pushes trie T) (l : ℕ) :
    unitsAt (entryBlocks trie.init) l = entryUnits trie.init l := by
  rw [entryBlocks, unitsAt_finset_sum, entryUnits]
  refine Finset.sum_congr rfl fun x _ => ?_
  rw [← unitsAt_blocks (h.wf_trie x) 0 l, zero_add]

theorem EngineBooked.accounted (h : EngineBooked trie) (hpush : Pushes trie T) :
    EngineAccounted trie := by
  obtain ⟨q, lost, haux⟩ := h.aux
  obtain ⟨lost', hunits, hlive⟩ := h.live
  refine ⟨?_, ?_, ⟨lost, haux.live, haux.units⟩, ⟨lost', hlive, hunits⟩⟩
  · refine Mm.Sound.accountedFor haux.sound fun l => ?_
    rw [haux.live, unitsAt_add, unitsAt_of_units_eq_zero haux.units, add_zero,
      ← unitsAt_blocks hpush.aux.wf 0 l, zero_add]
  · refine h.sound.accountedFor fun l => ?_
    rw [hlive, unitsAt_add, unitsAt_of_units_eq_zero hunits, add_zero, hpush.unitsAt_entryBlocks]

end Engine

/-- **Every run of either engine is accounted for.** -/
theorem engines_run_accounted :
    (∀ ops, (tbmMachine IpV4).Legal ∅ ops →
      ∃ trie, ops.foldlM tbmStep tbmInitTrie = some trie ∧ EngineAccounted trie) ∧
    (∀ ops, (tbmMachine IpV6).Legal ∅ ops →
      ∃ trie, ops.foldlM tbmv6Step tbmInitTrie = some trie ∧ EngineAccounted trie) := by
  rw [tbmStep_eq, tbmv6Step_eq]
  constructor
  all_goals
    intro ops hops
    obtain ⟨trie, hrun, hpush, hbook⟩ := exists_engineBooked_run hops
    exact ⟨trie, hrun, hbook.accounted hpush⟩

theorem engines_run_accounted_tenSlash8 :
    (∃ trie, tenOps.foldlM tbmStep tbmInitTrie = some trie ∧ EngineAccounted trie) ∧
    (∃ trie, docOps.foldlM tbmv6Step tbmInitTrie = some trie ∧ EngineAccounted trie) :=
  ⟨engines_run_accounted.1 _ engine_legal_tenOps, engines_run_accounted.2 _ engine_legal_docOps⟩

end TreeBitmap
