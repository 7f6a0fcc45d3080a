import TreeBitmap.Engines

/-!
# The init table after a run

What the entries are after any run, in terms of the stored prefixes alone: which of
them is pushed into an entry, what the flag word says, and what is behind the union.

## Main definitions

* `Prefix.Covers p x`, `Stored.IsCover T x p v` — the prefix of up to 13 bits that an
  entry owes its next hop to.
* `LeafPushed` — the init table and `up_aux`.
* `runs_leafPushed` — **it is leaf-pushed after every run**.
-/

namespace TreeBitmap

open LongestMatch IpAddr

section Covers

variable {α : Type} [IpAddr α]

/-- A prefix of up to 13 bits that matches the index. -/
def Prefix.Covers (p : Prefix α) (x : Fin (2 ^ INITIAL_BITS)) : Prop :=
  p.cidr ≤ INITIAL_BITS ∧ (IpAddr.bits p.ip).take p.cidr = (indexBits x).take p.cidr

theorem Prefix.covers_iff {p : Prefix α} {x : Fin (2 ^ INITIAL_BITS)} :
    p.Covers x ↔ p.bits <+: indexBits x := by
  constructor
  · intro h
    rw [Prefix.bits, h.2]
    exact List.take_prefix _ _
  · intro h
    have hle := h.length_le
    rw [p.length_bits, length_indexBits] at hle
    rw [List.prefix_iff_eq_take, p.length_bits] at h
    exact ⟨hle, h⟩

variable [DecidableEq α] {T : Stored α} {trie : TbmTrie} {x : Fin (2 ^ INITIAL_BITS)}
  {p : Prefix α} {v : Nhi}

/-- `p`, with the next hop `v`, is the longest stored prefix that covers the entry. -/
structure Stored.IsCover (T : Stored α) (x : Fin (2 ^ INITIAL_BITS)) (p : Prefix α) (v : Nhi) :
    Prop where
  lookup : T.lookup p = some v
  covers : p.Covers x
  longest : ∀ q ∈ T, q.Covers x → q.cidr ≤ p.cidr

theorem isCover_iff : T.IsCover x p v ↔ longest T.table (indexBits x) = some (p.bits, v) := by
  rw [longest_eq_some_iff, table_bits]
  constructor
  · intro h
    refine ⟨Prefix.covers_iff.mp h.covers, h.lookup, fun s hs hT => ?_⟩
    obtain ⟨u, hu⟩ := Option.ne_none_iff_exists'.mp hT
    obtain ⟨q, rfl, hq⟩ := exists_prefix_of_table hu
    rw [q.length_bits, p.length_bits]
    exact h.longest q (Finmap.mem_of_lookup_eq_some hq) (Prefix.covers_iff.mpr hs)
  · intro h
    obtain ⟨hpre, hv, hmax⟩ := h
    refine ⟨hv, Prefix.covers_iff.mpr hpre, fun q hq hcov => ?_⟩
    have hle := hmax q.bits (Prefix.covers_iff.mp hcov) (mem_iff_table.mp hq)
    rwa [q.length_bits, p.length_bits] at hle

theorem not_covers_iff : (∀ p ∈ T, ¬ p.Covers x) ↔ longest T.table (indexBits x) = none := by
  rw [longest_eq_none_iff]
  constructor
  · intro h s hs
    by_contra hT
    obtain ⟨u, hu⟩ := Option.ne_none_iff_exists'.mp hT
    obtain ⟨q, rfl, hq⟩ := exists_prefix_of_table hu
    exact h q (Finmap.mem_of_lookup_eq_some hq) (Prefix.covers_iff.mpr hs)
  · intro h p hp hcov
    exact mem_iff_table.mp hp (h p.bits (Prefix.covers_iff.mp hcov))

/-- The cover of an entry is a stored prefix. -/
theorem exists_isCover {s : List Bool} (h : longest T.table (indexBits x) = some (s, v)) :
    ∃ p : Prefix α, p.bits = s ∧ T.IsCover x p v := by
  obtain ⟨p, rfl, -⟩ := exists_prefix_of_table (longest_eq_some_iff.mp h).2.1
  exact ⟨p, rfl, isCover_iff.mpr h⟩

/-! ## The invariant of the table -/

/-- The init table and `up_aux`, when the prefixes of `T` are stored. -/
structure LeafPushed (trie : TbmTrie) (T : Stored α) : Prop where
  /-- The flag word shows the length of the covering prefix. -/
  prefixHi : ∀ x, (∀ p v, T.IsCover x p v → (trie.init x).prefixHi = p.cidr) ∧
    ((∀ p ∈ T, ¬ p.Covers x) → (trie.init x).prefixHi = 0)
  /-- A longer prefix makes the entry a trie. -/
  child : ∀ x, ∀ p ∈ T, INITIAL_BITS < p.cidr →
    (bits p.ip).take INITIAL_BITS = indexBits x → (trie.init x).hasChild = true
  /-- An entry that is no trie is the next hop of the covering prefix. -/
  pointer : ∀ x, (trie.init x).hasChild = false →
    (trie.init x).node.internal = 0 ∧ (∀ p v, T.IsCover x p v → (trie.init x).ptr = v) ∧
    ((∀ p ∈ T, ¬ p.Covers x) → (trie.init x).ptr = 0)
  /-- A trie holds the longer prefixes, and the covering one as its empty prefix. -/
  node : ∀ x, (trie.init x).hasChild = true →
    (trie.init x).node.Wf (IpAddr.LENGTH α - INITIAL_BITS) ∧
    (trie.init x).node.isEmpty = false ∧
    ∀ u v, (trie.init x).node.get u = some v ↔
      (∃ p, T.lookup p = some v ∧ INITIAL_BITS < p.cidr ∧ p.bits = indexBits x ++ u) ∨
      (u = [] ∧ ∃ p, T.IsCover x p v)
  /-- `up_aux` holds the stored prefixes. -/
  aux : trie.upAux.Wf (IpAddr.LENGTH α) ∧
    ∀ u v, trie.upAux.get u = some v ↔ ∃ p : Prefix α, p.bits = u ∧ T.lookup p = some v

theorem table_eq_some_iff {u : List Bool} :
    T.table u = some v ↔ ∃ p : Prefix α, p.bits = u ∧ T.lookup p = some v := by
  constructor
  · exact exists_prefix_of_table
  · intro h
    obtain ⟨p, rfl, hp⟩ := h
    rw [table_bits, hp]

theorem pushed_eq_some_iff {u : List Bool} :
    pushed T.table (indexBits x) u = some v ↔
      (∃ p : Prefix α, T.lookup p = some v ∧ INITIAL_BITS < p.cidr ∧ p.bits = indexBits x ++ u) ∨
      (u = [] ∧ ∃ p, T.IsCover x p v) := by
  cases u with
  | nil =>
      rw [pushed_nil, lpm, Option.map_eq_some_iff]
      constructor
      · intro h
        obtain ⟨⟨s, v'⟩, hl, rfl⟩ := h
        obtain ⟨p, -, hp⟩ := exists_isCover hl
        exact .inr ⟨rfl, p, hp⟩
      · intro h
        rcases h with ⟨p, -, hlt, hbits⟩ | ⟨-, p, hp⟩
        · have hlen := congrArg List.length hbits
          rw [p.length_bits, List.append_nil, length_indexBits] at hlen
          omega
        · exact ⟨_, isCover_iff.mp hp, rfl⟩
  | cons a u =>
      rw [pushed_of_ne_nil _ _ (by simp), table_eq_some_iff]
      constructor
      · intro h
        obtain ⟨p, hbits, hp⟩ := h
        refine .inl ⟨p, hp, ?_, hbits⟩
        have hlen := congrArg List.length hbits
        rw [p.length_bits, List.length_append, length_indexBits, List.length_cons] at hlen
        omega
      · intro h
        rcases h with ⟨p, hp, -, hbits⟩ | ⟨hnil, -⟩
        · exact ⟨p, hbits, hp⟩
        · cases hnil

/-- **An engine that holds the map is leaf-pushed.** -/
theorem Pushes.leafPushed (h : Pushes trie T) : LeafPushed trie T := by
  have hk := coverLength_indexBits_le T.table
  refine ⟨fun x => ⟨fun p v hp => ?_, fun hno => ?_⟩, fun x p hp hlt htake => ?_,
    fun x hchild => ?_, fun x hchild => ?_, h.aux.wf, fun u v => ?_⟩
  · rw [(h.entries x).prefixHi (hk x), coverLength, isCover_iff.mp hp]
    exact p.length_bits
  · rw [(h.entries x).prefixHi (hk x), coverLength, not_covers_iff.mp hno]
    rfl
  · have hlen := p.length_bits
    have hbits : p.bits.take INITIAL_BITS = indexBits x := by
      rw [Prefix.bits, List.take_take, min_eq_left hlt.le, htake]
    have hsplit : p.bits = indexBits x ++ p.bits.drop INITIAL_BITS := by
      rw [← hbits, List.take_append_drop]
    cases h.entries x with
    | trie flags => exact hasChild_trie (hk x) flags
    | pointer _ long =>
        have hne : p.bits.drop INITIAL_BITS ≠ [] := by
          apply List.ne_nil_of_length_pos
          rw [List.length_drop]
          omega
        exact absurd (hsplit ▸ long _ hne) (mem_iff_table.mp hp)
  · obtain ⟨-, -, ptr, -, empty⟩ := (h.entries x).of_not_hasChild (hk x) hchild
    have hinternal : (trie.init x).node.internal = 0 :=
      isEmpty_internal (n := ((trie.init x).setPtr 0).node) empty
    refine ⟨hinternal, fun p v hp => ?_, fun hno => ?_⟩
    · rw [ptr, lpm, isCover_iff.mp hp]
      rfl
    · rw [ptr, lpm, not_covers_iff.mp hno]
      rfl
  · obtain ⟨-, wf, get, full⟩ := (h.entries x).of_hasChild (hk x) hchild
    refine ⟨wf, full, fun u v => ?_⟩
    rw [get]
    exact pushed_eq_some_iff
  · have hget : trie.upAux.get = T.table := h.aux.get
    rw [hget]
    exact table_eq_some_iff

theorem exists_run_leafPushed {ops : List (Op α)} (hops : (tbmMachine α).Legal ∅ ops) :
    ∃ trie, ops.foldlM leafStep tbmInitTrie = some trie ∧
      LeafPushed trie ((tbmMachine α).exec ∅ ops) := by
  obtain ⟨trie, hrun, hpush⟩ := exists_leafStep_run hops
  exact ⟨trie, hrun, hpush.leafPushed⟩

end Covers

/-- **After every run, the init table is leaf-pushed.** -/
theorem runs_leafPushed :
    (∀ ops, (tbmMachine IpV4).Legal ∅ ops →
      ∃ trie, ops.foldlM tbmStep tbmInitTrie = some trie ∧
        LeafPushed trie ((tbmMachine IpV4).exec ∅ ops)) ∧
    (∀ ops, (tbmMachine IpV6).Legal ∅ ops →
      ∃ trie, ops.foldlM tbmv6Step tbmInitTrie = some trie ∧
        LeafPushed trie ((tbmMachine IpV6).exec ∅ ops)) := by
  rw [tbmStep_eq, tbmv6Step_eq]
  exact ⟨fun _ hops => exists_run_leafPushed hops, fun _ hops => exists_run_leafPushed hops⟩

theorem runs_leafPushed_insert_delete :
    (∃ trie, tenOps.foldlM tbmStep tbmInitTrie = some trie ∧
      LeafPushed trie ((tbmMachine IpV4).exec ∅ tenOps)) ∧
    (∃ trie, docOps.foldlM tbmv6Step tbmInitTrie = some trie ∧
      LeafPushed trie ((tbmMachine IpV6).exec ∅ docOps)) :=
  ⟨runs_leafPushed.1 _ engine_legal_tenOps, runs_leafPushed.2 _ engine_legal_docOps⟩

end TreeBitmap
