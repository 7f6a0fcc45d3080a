import TreeBitmap.LeafPushing

/-!
# Runs of the engines

An engine that starts from `tbm_init_trie` holds the stored prefixes after every run of
inserts and deletes.  From there on, a search is a search in one entry.

The IPv6 search shifts the address in place, first down to the index and then up again.
The bits that follow the index are gone by then, and what the trie of the entry is
searched for is the index once more.

## Main definitions

* `tbmMachine`, `tbmStep`, `tbmv6Step` — runs.
* `tbm_run_search` — **IPv4 search is longest-prefix match**.
* `searched`, `tbmv6_run_search_iff` — what the IPv6 search looks up, and **when that is
  right**.
* `LeafPushed`, `runs_leafPushed` — **the init table after any run**.
-/

namespace TreeBitmap

open BitString LongestMatch IpAddr

/-- The map under updates of an engine, which takes no default routes. -/
def tbmMachine (α : Type) [IpAddr α] [DecidableEq α] : Run.Machine (Stored α) (Op α) where
  legal T op := 1 ≤ op.prefix.cidr ∧ (storedMachine α).legal T op
  step := (storedMachine α).step

/-- One update of an engine. -/
def leafStep {α : Type} [IpAddr α] : TbmTrie → Op α → Option TbmTrie
  | trie, .insert p nhi => do
      let (trie, _) ← tbmInsert trie p.ip p.cidr nhi
      some trie
  | trie, .delete p destroyNhi => do
      let (trie, _, _) ← tbmDelete trie p.ip p.cidr destroyNhi
      some trie

/-- One update by the functions of `tbmv4.h`. -/
def tbmStep : TbmTrie → Op IpV4 → Option TbmTrie
  | trie, .insert p nhi => do
      let (trie, _) ← tbmInsertPrefix trie p.ip p.cidr nhi
      some trie
  | trie, .delete p destroyNhi => do
      let (trie, _, _) ← tbmDeletePrefix trie p.ip p.cidr destroyNhi
      some trie

/-- One update by the functions of `tbmv6.h`. -/
def tbmv6Step : TbmTrie → Op IpV6 → Option TbmTrie
  | trie, .insert p nhi => tbmv6InsertPrefix trie p.ip p.cidr nhi
  | trie, .delete p destroyNhi => do
      let (trie, _) ← tbmv6DeletePrefix trie p.ip p.cidr destroyNhi
      some trie

theorem tbmStep_eq : tbmStep = leafStep := by
  funext trie op
  cases op <;> rfl

theorem tbmv6Step_eq : tbmv6Step = leafStep := by
  funext trie op
  cases op with
  | insert p nhi => rfl
  | delete p destroyNhi =>
      rw [tbmv6Step, leafStep, tbmv6DeletePrefix]
      cases tbmDelete trie p.ip p.cidr destroyNhi <;> rfl

section Runs

variable {α : Type} [IpAddr α] [DecidableEq α] {trie : TbmTrie} {T : Stored α}

theorem leafStep_spec (h : Pushes trie T) {op : Op α} (hlegal : (tbmMachine α).legal T op) :
    ∃ trie', leafStep trie op = some trie' ∧ Pushes trie' ((tbmMachine α).step T op) := by
  obtain ⟨hpos, hlegal⟩ := hlegal
  cases op with
  | insert p nhi =>
      have hp : 1 ≤ p.cidr := hpos
      obtain ⟨trie', hins, hpush⟩ := tbmInsert_spec h hp nhi
      refine ⟨trie', ?_, hpush⟩
      rw [leafStep, hins]
      rfl
  | delete p destroyNhi =>
      have hmem : p ∈ T := hlegal
      obtain ⟨v, hv⟩ := Finmap.mem_iff.mp hmem
      obtain ⟨trie', calls, hdel, hpush, -⟩ := tbmDelete_spec h hv destroyNhi
      refine ⟨trie', ?_, hpush⟩
      rw [leafStep, hdel]
      rfl

/-- **After any run the engine holds the map.** -/
theorem exists_leafStep_run {ops : List (Op α)} (hops : (tbmMachine α).Legal ∅ ops) :
    ∃ trie, ops.foldlM leafStep tbmInitTrie = some trie ∧
      Pushes trie ((tbmMachine α).exec ∅ ops) := by
  have hstep : ∀ trie T op, Pushes trie T → (tbmMachine α).legal T op →
      ∃ trie', leafStep trie op = some trie' ∧ Pushes trie' ((tbmMachine α).step T op) :=
    fun _ _ _ h hlegal => leafStep_spec h hlegal
  exact Run.Machine.refines hstep pushes_init hops

end Runs

/-! ## Search -/

section Search

variable {α : Type} [IpAddr α] {w : ℕ} {T : Table Bool Nhi} {s r : List Bool} {e : InitNode}

/-- A search in an entry is a search in the whole table. -/
theorem Holds.search (h : Holds w T s e) (hs : s.length = INITIAL_BITS) {ip : α}
    (hip : Spells ip r) (hr : r.length = w) (lazyMark : LazyMark) :
    (if e.hasChild then doSearchLazy lazyMark e.node ip else some e.ptr) =
      some ((lpm T (s ++ r)).getD 0) := by
  have hk : coverLength T s ≤ INITIAL_BITS := hs ▸ coverLength_le T s
  cases h with
  | pointer flags long ptr wf empty =>
      have hlpm : lpm T (s ++ r) = lpm T s := by
        apply lpm_append_of_prefix r
        intro p hp hlt
        obtain ⟨u, rfl⟩ := List.prefix_of_prefix_length_le (List.prefix_append s r) hp hlt.le
        apply long u
        intro hu
        rw [hu, List.append_nil] at hlt
        exact lt_irrefl _ hlt
      rw [hasChild_pointer hk flags, hlpm, ptr]
      rfl
  | trie flags wf get full =>
      rw [hasChild_trie hk flags, if_pos rfl, doSearchLazy_eq wf hr hip, get, lpm_pushed]

end Search

/-- The index that the search computes. -/
theorem exists_initIndex_bits {α : Type} [IpAddr α] (ip : α) :
    ∃ x, initIndex (rshift ip (IpAddr.LENGTH α - INITIAL_BITS)) = some x ∧
      indexBits x = (bits ip).take INITIAL_BITS := by
  have hlen := le_length (α := α)
  have htake : ((bits ip).take INITIAL_BITS).length = INITIAL_BITS := by
    rw [List.length_take, IpAddr.length_bits, min_eq_left (by rw [INITIAL_BITS]; omega)]
  rw [IpAddr.rshift_eq ip _ (by decide) (by decide)]
  exact exists_initIndex htake

/-- **`tbm_search` is longest-prefix match.** -/
theorem tbmSearch_eq {trie : TbmTrie} {T : Stored IpV4} (h : Pushes trie T) (lazyMark : LazyMark)
    (a : IpV4) : tbmSearch lazyMark trie a = some ((lpm T.table (bits a)).getD 0) := by
  obtain ⟨x, hindex, hx⟩ := exists_initIndex_bits a
  have hindex' : initIndex (shr a (LENGTH - INITIAL_BITS)).toNat = some x := hindex
  have hip : Spells (shl a INITIAL_BITS) ((bits a).drop INITIAL_BITS) :=
    (spells_bits a).lshift (k := INITIAL_BITS) (by decide) (by decide)
      (by rw [IpAddr.length_bits]; decide)
  have hsearch := (h.entries x).search (length_indexBits x) hip
    (by rw [List.length_drop, IpAddr.length_bits]) lazyMark
  rw [hx, List.take_append_drop] at hsearch
  rw [tbmSearch, hindex']
  exact hsearch

/-- **IPv4.**  After any run, `tbm_search` returns the next hop of the longest stored
prefix that matches, or `NULL`. -/
theorem tbm_run_search {ops : List (Op IpV4)} (hops : (tbmMachine IpV4).Legal ∅ ops) :
    ∃ trie, ops.foldlM tbmStep tbmInitTrie = some trie ∧
      ∀ lazyMark a, ∃ r, tbmSearch lazyMark trie a = some r ∧
        ((tbmMachine IpV4).exec ∅ ops).Answers a r := by
  obtain ⟨trie, hrun, hpush⟩ := exists_leafStep_run hops
  refine ⟨trie, tbmStep_eq ▸ hrun, fun lazyMark a => ?_⟩
  exact ⟨_, tbmSearch_eq hpush lazyMark a, answers_iff.mpr rfl⟩

/-- No default route, and nothing else that an engine does not take. -/
theorem engine_legal_tenOps : (tbmMachine IpV4).Legal ∅ tenOps :=
  ⟨⟨by decide, trivial⟩, ⟨by decide, trivial⟩, ⟨by decide, trivial⟩, ⟨by decide, trivial⟩,
    ⟨by decide, legal_tenOps.2.2.2.2.1⟩, trivial⟩

theorem engine_legal_docOps : (tbmMachine IpV6).Legal ∅ docOps :=
  ⟨⟨by decide, trivial⟩, ⟨by decide, trivial⟩, ⟨by decide, trivial⟩, ⟨by decide, trivial⟩,
    ⟨by decide, trivial⟩, ⟨by decide, legal_docOps.2.2.2.2.2.1⟩, trivial⟩

theorem tbm_run_search_tenSlash8 :
    ∃ trie, tenOps.foldlM tbmStep tbmInitTrie = some trie ∧
      ∀ lazyMark a, ∃ r, tbmSearch lazyMark trie a = some r ∧
        ((tbmMachine IpV4).exec ∅ tenOps).Answers a r :=
  tbm_run_search engine_legal_tenOps

/-! ## The IPv6 search -/

/-- What `tbmv6_search` looks up for an address: the index bits, and then, for the bits
that follow them, the index as a number of 115 bits. -/
def searched (a : IpV6) : IpV6 :=
  IpAddr.ofBits ((bits a).take INITIAL_BITS ++
    List.replicate (LENGTH_v6 - 2 * INITIAL_BITS) false ++ (bits a).take INITIAL_BITS)

theorem bits_searched (a : IpV6) :
    bits (searched a) = (bits a).take INITIAL_BITS ++
      (List.replicate (LENGTH_v6 - 2 * INITIAL_BITS) false ++ (bits a).take INITIAL_BITS) := by
  have hlen : ((bits a).take INITIAL_BITS ++
      List.replicate (LENGTH_v6 - 2 * INITIAL_BITS) false ++
        (bits a).take INITIAL_BITS).length = IpAddr.LENGTH IpV6 := by
    rw [List.length_append, List.length_append, List.length_take, List.length_replicate,
      IpAddr.length_bits]
    rfl
  rw [searched, IpAddr.bits_ofBits _ hlen.le, hlen, Nat.sub_self, List.replicate_zero,
    List.append_nil, List.append_assoc]

/-- The address that the search has left when it enters the trie of an entry. -/
theorem spells_shifted (a : IpV6) :
    Spells (lshiftIpv6 (rshiftIpv6 a (LENGTH_v6 - INITIAL_BITS)) INITIAL_BITS)
      (List.replicate (LENGTH_v6 - 2 * INITIAL_BITS) false ++ (bits a).take INITIAL_BITS) := by
  have hbits : bits (rshiftIpv6 a (LENGTH_v6 - INITIAL_BITS)) =
      List.replicate (LENGTH_v6 - INITIAL_BITS) false ++ (bits a).take INITIAL_BITS := by
    change ofBitVec (rshiftIpv6 a (LENGTH_v6 - INITIAL_BITS)).toBitVec = _
    rw [IpV6.toBitVec_rshiftIpv6 a (by decide) (by decide), ofBitVec_ushiftRight _ (by decide)]
    rfl
  have hshift := (spells_bits (rshiftIpv6 a (LENGTH_v6 - INITIAL_BITS))).lshift
    (k := INITIAL_BITS) (by decide) (by decide) (by rw [IpAddr.length_bits]; decide)
  rw [hbits, List.drop_append_of_le_length (by rw [List.length_replicate]; decide),
    List.drop_replicate] at hshift
  exact hshift

/-- **`tbmv6_search` looks up another address.** -/
theorem tbmv6Search_eq {trie : TbmTrie} {T : Stored IpV6} (h : Pushes trie T)
    (lazyMark : LazyMark) (a : IpV6) :
    tbmv6Search lazyMark trie a = some ((lpm T.table (bits (searched a))).getD 0) := by
  obtain ⟨x, hindex, hx⟩ := exists_initIndex_bits a
  have hindex' : initIndex (rshiftIpv6 a (LENGTH_v6 - INITIAL_BITS)).iplo.toNat = some x := hindex
  have hlen : (List.replicate (LENGTH_v6 - 2 * INITIAL_BITS) false ++
      (bits a).take INITIAL_BITS).length = IpAddr.LENGTH IpV6 - INITIAL_BITS := by
    rw [List.length_append, List.length_replicate, List.length_take, IpAddr.length_bits]
    rfl
  have hsearch := (h.entries x).search (length_indexBits x) (spells_shifted a) hlen lazyMark
  rw [hx, ← bits_searched] at hsearch
  rw [tbmv6Search]
  simp only [hindex', Option.bind_eq_bind, Option.bind_some]
  exact hsearch

/-- **IPv6.**  After any run, `tbmv6_search` returns the next hop of the longest stored
prefix that matches, just if that is also the answer for the address it looks up. -/
theorem tbmv6_run_search_iff {ops : List (Op IpV6)} (hops : (tbmMachine IpV6).Legal ∅ ops) :
    ∃ trie, ops.foldlM tbmv6Step tbmInitTrie = some trie ∧
      ∀ lazyMark a, ∃ r, tbmv6Search lazyMark trie a = some r ∧
        (((tbmMachine IpV6).exec ∅ ops).Answers a r ↔
          ∃ r', ((tbmMachine IpV6).exec ∅ ops).Answers a r' ∧
            ((tbmMachine IpV6).exec ∅ ops).Answers (searched a) r') := by
  obtain ⟨trie, hrun, hpush⟩ := exists_leafStep_run hops
  refine ⟨trie, tbmv6Step_eq ▸ hrun, fun lazyMark a => ⟨_, tbmv6Search_eq hpush lazyMark a, ?_⟩⟩
  constructor
  · intro h
    exact ⟨_, h, answers_iff.mpr rfl⟩
  · intro h
    obtain ⟨r', ha, hs⟩ := h
    have hr' := answers_iff.mp hs
    rw [hr'] at ha
    exact ha

theorem tbmv6_run_search_iff_docSlash32 :
    ∃ trie, docOps.foldlM tbmv6Step tbmInitTrie = some trie ∧
      ∀ lazyMark a, ∃ r, tbmv6Search lazyMark trie a = some r ∧
        (((tbmMachine IpV6).exec ∅ docOps).Answers a r ↔
          ∃ r', ((tbmMachine IpV6).exec ∅ docOps).Answers a r' ∧
            ((tbmMachine IpV6).exec ∅ docOps).Answers (searched a) r') :=
  tbmv6_run_search_iff engine_legal_docOps

/-- With `2001:db8::/32` alone, the address `2001:db8::` is not found. -/
theorem tbmv6_search_docSlash32 :
    ¬ ∀ ops, (tbmMachine IpV6).Legal ∅ ops → ∀ trie, ops.foldlM tbmv6Step tbmInitTrie = some trie →
      ∀ lazyMark a r, tbmv6Search lazyMark trie a = some r →
        ((tbmMachine IpV6).exec ∅ ops).Answers a r := by
  intro h
  have hlegal : (tbmMachine IpV6).Legal ∅ [Op.insert docSlash32 1] :=
    ⟨⟨by decide, trivial⟩, trivial⟩
  obtain ⟨trie, hrun, hpush⟩ := exists_leafStep_run hlegal
  let T : Stored IpV6 := (∅ : Stored IpV6).insert docSlash32 1
  have hmem : ∀ q ∈ T, q = docSlash32 := by
    intro q hq
    exact (Finmap.mem_insert.mp hq).resolve_right Finmap.notMem_empty
  have hnot : ¬ docSlash32.Matches (searched docSlash32.ip) := by
    rw [Prefix.Matches]
    decide +kernel
  have hlookup : T.lookup docSlash32 = some 1 := Finmap.lookup_insert _
  have hans : T.Answers docSlash32.ip _ := h _ hlegal trie (tbmv6Step_eq ▸ hrun)
    (fun _ => (.zero, 0)) docSlash32.ip _ (tbmv6Search_eq hpush _ _)
  have hsearched : T.Answers (searched docSlash32.ip)
      ((lpm T.table (bits (searched docSlash32.ip))).getD 0) := answers_iff.mpr rfl
  have hzero : (lpm T.table (bits (searched docSlash32.ip))).getD 0 = 0 := by
    rcases hsearched with ⟨p, hp, hmatch, -⟩ | ⟨-, hzero⟩
    · rw [hmem p (Finmap.mem_of_lookup_eq_some hp)] at hmatch
      exact absurd hmatch hnot
    · exact hzero
  rcases hans with ⟨p, hp, -⟩ | ⟨hno, -⟩
  · rw [hmem p (Finmap.mem_of_lookup_eq_some hp), hlookup] at hp
    exact absurd ((Option.some.inj hp).trans hzero) (by decide)
  · exact hno docSlash32 (Finmap.mem_of_lookup_eq_some hlookup) rfl

end TreeBitmap
