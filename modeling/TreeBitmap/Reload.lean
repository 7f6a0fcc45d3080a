import TreeBitmap.Callbacks
import TreeBitmap.Engines
import TreeBitmap.Traversal

/-!
# An engine and its dump

`tbm_print_all_prefix` prints what `up_aux` holds, and what it prints, inserted into a new engine in
any order, makes an engine that answers every search alike.  The two are not quite the same.  A
delete leaves an entry its trie, as long as a short prefix covers the entry, although nothing but
the next hop of that prefix is left in it.  In an engine that has only seen inserts there is no such
trie: a reload turns it back into a bare pointer, and changes nothing else.

`tbmv6_print_all_prefix` misprints some prefixes of length 128, and then the engine is another one.

## Main definitions

* `InitNode.contents` — an entry without its pointers to blocks.
* `TbmTrie.Tidy` — there are no tries but where a stored prefix goes on.
* `Compacted` — what a reload makes of an engine.
* `tbm_run_reload`, `tbmv6_run_reload_iff` — **what a dump restores**.
-/

namespace TreeBitmap

open BitString LongestMatch Ranked IpAddr

/-! ## Equal entries -/

/-- An entry without its pointers to blocks. -/
def InitNode.contents (e : InitNode) : InitNode := ⟨e.flags, e.node.contents⟩

theorem get_contents (n : MbNode) (s : List Bool) : n.contents.get s = n.get s := by
  induction s using stride_induction generalizing n with
  | leaf s hs =>
      rw [MbNode.get_of_lt hs, MbNode.get_of_lt hs, MbNode.rule, MbNode.rule, contents_eq]
  | inner t s ht ih =>
      rw [MbNode.get_append ht, MbNode.get_append ht, MbNode.kid, MbNode.kid, contents_eq,
        lookup_map]
      cases lookup (members n.external) n.children (value t) with
      | none => rfl
      | some c => exact ih c

/-- An empty node has nothing but its pointer. -/
theorem contents_of_isEmpty {n : MbNode} (hn : n.Layout) (h : n.isEmpty) :
    n.contents = MbNode.zero := by
  obtain ⟨hint, hext⟩ := isEmpty_iff.mp h
  have hrules : n.rules = [] := by
    rw [← List.length_eq_zero_iff, hn.rules_length, hint, Finset.card_empty]
  have hkids : n.children = [] := by
    rw [← List.length_eq_zero_iff, hn.children_length, hext, Finset.card_empty]
  rw [contents_eq, isEmpty_internal h, isEmpty_external h, hrules, hkids]
  rfl

/-- The contents of a bare pointer. -/
theorem contents_of_pointer {e : InitNode} (hn : (e.setPtr 0).node.Layout)
    (h : (e.setPtr 0).node.isEmpty) :
    e.contents = ⟨e.flags, (InitNode.zero.setPtr e.ptr).node⟩ := by
  have hnode := contents_of_isEmpty hn h
  rw [contents_eq] at hnode
  simp only [InitNode.setPtr, MbNode.zero, MbNode.mk.injEq] at hnode
  obtain ⟨-, hint, -, hrules, hkids⟩ := hnode
  rw [InitNode.contents, contents_eq, hint, hrules, hkids]
  rfl

/-- Entries that hold the same part of a table in the same way are equal up to their pointers. -/
theorem Holds.contents_eq {w : ℕ} {T : Table Bool Nhi} {s : List Bool} {e e' : InitNode}
    (hk : coverLength T s ≤ INITIAL_BITS) (h : Holds w T s e) (h' : Holds w T s e')
    (hchild : e.hasChild = e'.hasChild) : e.contents = e'.contents := by
  cases hc : e.hasChild with
  | false =>
      obtain ⟨hflags, -, hptr, hwf, hempty⟩ := h.of_not_hasChild hk hc
      obtain ⟨hflags', -, hptr', hwf', hempty'⟩ := h'.of_not_hasChild hk (hchild ▸ hc)
      rw [contents_of_pointer hwf.layout hempty, contents_of_pointer hwf'.layout hempty', hflags,
        hflags', hptr, hptr']
  | true =>
      obtain ⟨hflags, hwf, hget, -⟩ := h.of_hasChild hk hc
      obtain ⟨hflags', hwf', hget', -⟩ := h'.of_hasChild hk (hchild ▸ hc)
      rw [InitNode.contents, InitNode.contents, hflags, hflags',
        contents_eq_of_get_eq hwf hwf' (hget.trans hget'.symm)]

section Engine

variable {α : Type} [IpAddr α] [DecidableEq α] {T T' : Stored α} {trie trie' : TbmTrie}
  {x : Fin (2 ^ INITIAL_BITS)} {p : Prefix α}

/-- A stored prefix goes on below the entry. -/
def Stored.GoesOn (T : Stored α) (x : Fin (2 ^ INITIAL_BITS)) : Prop :=
  ∃ p ∈ T, INITIAL_BITS < p.cidr ∧ indexBits x <+: p.bits

/-- There are no tries but where a stored prefix goes on. -/
def TbmTrie.Tidy (trie : TbmTrie) (T : Stored α) : Prop :=
  ∀ x, (trie.init x).hasChild = true → T.GoesOn x

theorem goesOn_iff : T.GoesOn x ↔ ∃ u, u ≠ [] ∧ T.table (indexBits x ++ u) ≠ none := by
  constructor
  · intro h
    obtain ⟨p, hp, hlt, u, hu⟩ := h
    refine ⟨u, fun hnil => ?_, hu ▸ mem_iff_table.mp hp⟩
    have hlen := congrArg List.length hu
    rw [hnil, List.append_nil, length_indexBits, p.length_bits] at hlen
    omega
  · intro h
    obtain ⟨u, hu, hT⟩ := h
    obtain ⟨v, hv⟩ := Option.ne_none_iff_exists'.mp hT
    obtain ⟨p, hbits, hp⟩ := exists_prefix_of_table hv
    refine ⟨p, Finmap.mem_of_lookup_eq_some hp, ?_, hbits ▸ List.prefix_append _ _⟩
    have hlen := congrArg List.length hbits
    have hpos := List.length_pos_of_ne_nil hu
    rw [p.length_bits, List.length_append, length_indexBits] at hlen
    omega

theorem Stored.GoesOn.insert (h : T.GoesOn x) (nhi : Nhi) :
    Stored.GoesOn (T.insert p nhi) x := by
  obtain ⟨q, hq, hlong⟩ := h
  exact ⟨q, Finmap.mem_insert.mpr (.inr hq), hlong⟩

/-- Where a stored prefix goes on, there is a trie. -/
theorem Pushes.hasChild_of_goesOn (h : Pushes trie T) (hx : T.GoesOn x) :
    (trie.init x).hasChild = true := by
  obtain ⟨u, hu, hT⟩ := goesOn_iff.mp hx
  cases h.entries x with
  | trie flags => exact hasChild_trie (coverLength_indexBits_le T.table x) flags
  | pointer _ long => exact absurd (long u hu) hT

/-! ## What a reload makes of an engine -/

/-- The engine `trie'`, beside an engine `trie` that holds the same map: it has no tries but where
a stored prefix goes on.  In the place of a trie that deletes have left behind it has the one next
hop that this one holds, and everything else is equal. -/
structure Compacted (T : Stored α) (trie trie' : TbmTrie) : Prop where
  aux : trie'.upAux.contents = trie.upAux.contents
  child : ∀ x, (trie'.init x).hasChild = true ↔ T.GoesOn x
  prefixHi : ∀ x, (trie'.init x).prefixHi = (trie.init x).prefixHi
  entry : ∀ x, (trie'.init x).contents = (trie.init x).contents ∨
    ((trie'.init x).hasChild = false ∧ (trie.init x).hasChild = true ∧
      (trie.init x).node.get =
        Function.update (fun _ => none) [] (some (trie'.init x).ptr))

theorem Pushes.compacted (h : Pushes trie T) (h' : Pushes trie' T) (htidy : trie'.Tidy T) :
    Compacted T trie trie' := by
  have hk := coverLength_indexBits_le T.table
  refine ⟨h'.aux.contents_eq h.aux, fun x => ⟨htidy x, h'.hasChild_of_goesOn⟩, fun x => ?_,
    fun x => ?_⟩
  · rw [(h.entries x).prefixHi (hk x), (h'.entries x).prefixHi (hk x)]
  · cases hc' : (trie'.init x).hasChild with
    | true =>
        have hc := h.hasChild_of_goesOn (htidy x hc')
        exact .inl ((h'.entries x).contents_eq (hk x) (h.entries x) (hc'.trans hc.symm))
    | false =>
        cases hc : (trie.init x).hasChild with
        | false => exact .inl ((h'.entries x).contents_eq (hk x) (h.entries x) (hc'.trans hc.symm))
        | true =>
            obtain ⟨-, hlong, hptr, -, -⟩ := (h'.entries x).of_not_hasChild (hk x) hc'
            obtain ⟨-, hwf, hget, hfull⟩ := (h.entries x).of_hasChild (hk x) hc
            refine .inr ⟨rfl, rfl, ?_⟩
            -- the trie is not empty, and nothing is below the empty string
            obtain ⟨u, hu⟩ := exists_get_ne_none hwf hfull
            have hbelow : ∀ u, u ≠ [] → pushed T.table (indexBits x) u = none := by
              intro u hu
              rw [pushed_of_ne_nil _ _ hu, hlong u hu]
            have hnil : u = [] := by
              by_contra hne
              rw [hget, hbelow u hne] at hu
              exact hu rfl
            rw [hnil, hget, pushed_nil] at hu
            obtain ⟨v, hv⟩ := Option.ne_none_iff_exists'.mp hu
            rw [hptr, hv, Option.getD_some, hget]
            funext t
            by_cases ht : t = []
            · rw [ht, Function.update_self, pushed_nil, hv]
            · rw [Function.update_of_ne ht, hbelow t ht]

/-- Engines with the same `up_aux`, up to the pointers, store the same. -/
theorem Pushes.eq_of_contents_eq (h : Pushes trie T) (h' : Pushes trie' T')
    (heq : trie.upAux.contents = trie'.upAux.contents) : T = T' := by
  have hget : trie.upAux.get = T.table := h.aux.get
  have hget' : trie'.upAux.get = T'.table := h'.aux.get
  apply Finmap.ext_lookup
  intro p
  rw [← table_bits, ← table_bits, ← hget, ← hget', ← get_contents trie.upAux,
    ← get_contents trie'.upAux, heq]

/-! ## Inserts keep an engine tidy -/

/-- **An insert makes a trie only where its prefix goes on.** -/
theorem tbmInsert_tidy {nhi : Nhi} {ret : ℤ} (hp : 1 ≤ p.cidr)
    (h : tbmInsert trie p.ip p.cidr nhi = some (trie', ret)) (htidy : trie.Tidy T) :
    trie'.Tidy (T.insert p nhi) := by
  rw [tbmInsert, if_neg (by omega)] at h
  obtain ⟨t, ht, h⟩ := Option.bind_eq_some_iff.mp h
  obtain ⟨⟨upAux, upM, ret'⟩, haux, h⟩ := Option.bind_eq_some_iff.mp h
  obtain ⟨rfl, -⟩ := Prod.mk.inj (Option.some.inj h)
  intro x hx
  by_cases hshort : p.cidr ≤ INITIAL_BITS
  · rw [if_pos hshort] at ht
    exact (htidy x ((hasChild_insertSweep hshort ht x).symm.trans hx)).insert nhi
  · obtain ⟨y, u, hindex, hbits, -, -⟩ := exists_entry (not_le.mp hshort)
    rw [if_neg hshort, hindex, Option.bind_eq_bind, Option.bind_some] at ht
    obtain ⟨⟨e, m⟩, -, ht⟩ := Option.bind_eq_some_iff.mp ht
    cases ht
    by_cases hxy : x = y
    · subst hxy
      exact ⟨p, Finmap.mem_insert.mpr (.inl rfl), not_le.mp hshort, hbits ▸ List.prefix_append _ _⟩
    · have hrest : (trie.init x).hasChild = true := by
        simpa only [TbmTrie.setEntry, Function.update_of_ne hxy] using hx
      exact (htidy x hrest).insert nhi

/-! ## Loading a dump -/

/-- A line of a dump, inserted. -/
def loadLine (trie : TbmTrie) (c : Report α) : Option TbmTrie := do
  let (trie, _) ← tbmInsert trie c.1 c.2.1 c.2.2
  some trie

variable {L : List (Prefix α × Nhi)}

/-- **A load makes a tidy engine.** -/
theorem exists_loaded (hL : ∀ e ∈ L, 1 ≤ e.1.cidr) (h : Pushes trie T) (htidy : trie.Tidy T) :
    ∃ trie', (L.map lineOf).foldlM loadLine trie = some trie' ∧ Pushes trie' (T.adding L) ∧
      trie'.Tidy (T.adding L) := by
  induction L generalizing trie T with
  | nil => exact ⟨trie, rfl, h, htidy⟩
  | cons e L ih =>
      have hpos : 1 ≤ e.1.cidr := hL e List.mem_cons_self
      obtain ⟨trie₁, hins, hpush⟩ := tbmInsert_spec h hpos e.2
      obtain ⟨trie', hload, hend⟩ := ih (fun e he => hL e (List.mem_cons_of_mem _ he)) hpush
        (tbmInsert_tidy hpos hins htidy)
      refine ⟨trie', ?_, hend⟩
      have hline : loadLine trie (lineOf e) = some trie₁ := by
        rw [loadLine, lineOf, hins]
        rfl
      rw [List.map_cons, List.foldlM_cons, hline]
      exact hload

/-- **What a dump loads**, if a prefix `p` is printed as `φ p`: the map, just if every stored prefix
is printed as it is. -/
theorem exists_reloaded {φ : Prefix α → Prefix α} (hcidr : ∀ p, (φ p).cidr = p.cidr)
    (hφ : ∀ p, φ (φ p) = φ p) (hpos : ∀ p ∈ T, 1 ≤ p.cidr) {calls : List (Report α)}
    (hcalls : (calls : Multiset (Report α)) = T.reports fun p => (φ p).ip) :
    ∃ trie' T', calls.foldlM loadLine tbmInitTrie = some trie' ∧ Pushes trie' T' ∧
      trie'.Tidy T' ∧ (T' = T ↔ ∀ p ∈ T, φ p = p) := by
  obtain ⟨L, rfl, hL⟩ := exists_lines hcidr hcalls
  have hLpos : ∀ e ∈ L, 1 ≤ e.1.cidr := by
    intro e he
    obtain ⟨p, hv, heq⟩ := (hL e).mp he
    rw [← heq, hcidr]
    exact hpos p (Finmap.mem_of_lookup_eq_some hv)
  have hempty : tbmInitTrie.Tidy (∅ : Stored α) := by
    intro x hx
    exact absurd (show InitNode.zero.hasChild = true from hx) (by decide)
  obtain ⟨trie', hload, hpush, htidy⟩ := exists_loaded hLpos pushes_init hempty
  refine ⟨trie', _, hload, hpush, htidy, ?_⟩
  constructor
  · -- every stored prefix has been printed, and what is printed is printed as it is
    intro heq p hp
    rw [← heq, mem_adding] at hp
    obtain ⟨v, hv⟩ := hp.resolve_left Finmap.notMem_empty
    obtain ⟨q, -, hq⟩ := (hL (p, v)).mp hv
    have hqp : φ q = p := hq
    rw [← hqp, hφ]
  · intro hsame
    refine adding_eq fun e => (hL e).trans ?_
    constructor
    · intro h
      obtain ⟨p, hv, heq⟩ := h
      rwa [← heq, hsame p (Finmap.mem_of_lookup_eq_some hv)]
    · exact fun hv => ⟨e.1, hv, hsame e.1 (Finmap.mem_of_lookup_eq_some hv)⟩

end Engine

/-! ## The dumps of the two engines -/

/-- A line of a dump, inserted by `tbm_insert_prefix`. -/
def tbmLoad (trie : TbmTrie) : Report IpV4 → Option TbmTrie
  | (ip, cidr, nhi) => do
      let (trie, _) ← tbmInsertPrefix trie ip cidr nhi
      some trie

/-- A line of a dump, inserted by `tbmv6_insert_prefix`. -/
def tbmv6Load (trie : TbmTrie) : Report IpV6 → Option TbmTrie
  | (ip, cidr, nhi) => tbmv6InsertPrefix trie ip cidr nhi

theorem tbmLoad_eq : tbmLoad = loadLine := rfl

theorem tbmv6Load_eq : tbmv6Load = loadLine := rfl

/-- **IPv4.**  After any run, the dump of the engine has a line for every stored prefix.  Loaded
into a new engine, in any order, it makes an engine without the tries that deletes have left behind,
which answers every search alike. -/
theorem tbm_run_reload {ops : List (Op IpV4)} (hops : (tbmMachine IpV4).Legal ∅ ops) :
    ∃ trie calls, ops.foldlM tbmStep tbmInitTrie = some trie ∧
      tbmPrintAllPrefix trie = some calls ∧
      (calls : Multiset (Report IpV4)) = ((tbmMachine IpV4).exec ∅ ops).reports Prefix.ip ∧
      ∀ calls' : List (Report IpV4), calls'.Perm calls →
        ∃ trie', calls'.foldlM tbmLoad tbmInitTrie = some trie' ∧
          Compacted ((tbmMachine IpV4).exec ∅ ops) trie trie' ∧
          ∀ lazyMark a, tbmSearch lazyMark trie' a = tbmSearch lazyMark trie a := by
  obtain ⟨trie, hrun, hpush⟩ := exists_leafStep_run hops
  obtain ⟨calls, hprint, hcalls⟩ := hpush.aux.bitmapMbNodeIter
  refine ⟨trie, calls, tbmStep_eq ▸ hrun, hprint, hcalls, fun calls' hperm => ?_⟩
  rw [← Multiset.coe_eq_coe.mpr hperm] at hcalls
  obtain ⟨trie', T', hload, hpush', htidy, hmap⟩ :=
    exists_reloaded (φ := fun p => p) (fun _ => rfl) (fun _ => rfl) hpush.pos hcalls
  obtain rfl := hmap.mpr fun _ _ => rfl
  refine ⟨trie', tbmLoad_eq ▸ hload, hpush.compacted hpush' htidy, fun lazyMark a => ?_⟩
  rw [tbmSearch_eq hpush' lazyMark a, tbmSearch_eq hpush lazyMark a]

/-- The entry of `10.0.0.0/24` stays a trie after its delete, until a reload. -/
theorem tbm_run_reload_tenSlash24 :
    ∃ trie calls, [Op.insert tenSlash8 1, .insert tenSlash24 2, .delete tenSlash24 true].foldlM
        tbmStep tbmInitTrie = some trie ∧
      tbmPrintAllPrefix trie = some calls ∧
      (calls : Multiset (Report IpV4)) = ((tbmMachine IpV4).exec ∅
        [Op.insert tenSlash8 1, .insert tenSlash24 2, .delete tenSlash24 true]).reports Prefix.ip ∧
      ∀ calls' : List (Report IpV4), calls'.Perm calls →
        ∃ trie', calls'.foldlM tbmLoad tbmInitTrie = some trie' ∧
          Compacted ((tbmMachine IpV4).exec ∅
            [Op.insert tenSlash8 1, .insert tenSlash24 2, .delete tenSlash24 true]) trie trie' ∧
          ∀ lazyMark a, tbmSearch lazyMark trie' a = tbmSearch lazyMark trie a :=
  tbm_run_reload ⟨⟨by decide, trivial⟩, ⟨by decide, trivial⟩,
    ⟨by decide, Finmap.mem_insert.mpr (.inl rfl)⟩, trivial⟩

/-- A prefix as it is printed. -/
def Prefix.printed (p : Prefix IpV6) : Prefix IpV6 where
  ip := p.printedIp
  cidr := p.cidr
  cidr_le := p.cidr_le
  host := by
    by_cases h : p.cidr = 128
    · rw [h]
      exact List.eq_nil_of_length_eq_zero (by rw [List.length_drop, IpAddr.length_bits]; rfl)
    · rw [Prefix.printedIp, if_neg h]
      exact p.host

@[simp] theorem Prefix.ip_printed (p : Prefix IpV6) : p.printed.ip = p.printedIp := rfl

@[simp] theorem Prefix.cidr_printed (p : Prefix IpV6) : p.printed.cidr = p.cidr := rfl

theorem Prefix.printed_printed (p : Prefix IpV6) : p.printed.printed = p.printed := by
  have hip : p.printed.printedIp = p.printedIp := by
    rw [Prefix.printedIp.eq_def p.printed, Prefix.ip_printed, Prefix.cidr_printed,
      Prefix.printedIp]
    split_ifs
    · rw [BitVec.or_assoc, BitVec.or_self]
    · rfl
  exact Prefix.eq_of_ip_eq hip rfl

theorem Prefix.printed_eq_iff (p : Prefix IpV6) :
    p.printed = p ↔ (p.cidr = 128 → p.ip.iphi ||| (p.ip.iplo &&& 3) = p.ip.iphi) := by
  rw [← p.printedIp_eq_iff]
  constructor
  · exact fun h => congrArg Prefix.ip h
  · exact fun h => Prefix.eq_of_ip_eq h rfl

/-- **IPv6.**  After any run, what the dump of the engine loads into a new engine, in any order, is
an engine of the same prefixes just if the last two bits of every stored prefix of length 128 are
set in its high word as well. -/
theorem tbmv6_run_reload_iff {ops : List (Op IpV6)} (hops : (tbmMachine IpV6).Legal ∅ ops) :
    ∃ trie calls, ops.foldlM tbmv6Step tbmInitTrie = some trie ∧
      tbmv6PrintAllPrefix trie = some calls ∧
      ∀ calls' : List (Report IpV6), calls'.Perm calls →
        ∃ trie', calls'.foldlM tbmv6Load tbmInitTrie = some trie' ∧
          ((Compacted ((tbmMachine IpV6).exec ∅ ops) trie trie' ∧
              ∀ lazyMark a, tbmv6Search lazyMark trie' a = tbmv6Search lazyMark trie a) ↔
            ∀ p ∈ (tbmMachine IpV6).exec ∅ ops, p.cidr = 128 →
              p.ip.iphi ||| (p.ip.iplo &&& 3) = p.ip.iphi) := by
  obtain ⟨trie, hrun, hpush⟩ := exists_leafStep_run hops
  obtain ⟨calls, hprint, hcalls⟩ := hpush.aux.bitmapv6PrintAllPrefix
  refine ⟨trie, calls, tbmv6Step_eq ▸ hrun, hprint, fun calls' hperm => ?_⟩
  rw [← Multiset.coe_eq_coe.mpr hperm] at hcalls
  obtain ⟨trie', T', hload, hpush', htidy, hmap⟩ :=
    exists_reloaded (φ := Prefix.printed) (fun _ => rfl) Prefix.printed_printed hpush.pos hcalls
  refine ⟨trie', tbmv6Load_eq ▸ hload, ?_⟩
  simp only [← Prefix.printed_eq_iff, ← hmap]
  constructor
  · exact fun h => hpush'.eq_of_contents_eq hpush h.1.aux
  · rintro rfl
    refine ⟨hpush.compacted hpush' htidy, fun lazyMark a => ?_⟩
    rw [tbmv6Search_eq hpush' lazyMark a, tbmv6Search_eq hpush lazyMark a]

theorem tbmv6_run_reload_iff_docSlash32 :
    ∃ trie calls, docOps.foldlM tbmv6Step tbmInitTrie = some trie ∧
      tbmv6PrintAllPrefix trie = some calls ∧
      ∀ calls' : List (Report IpV6), calls'.Perm calls →
        ∃ trie', calls'.foldlM tbmv6Load tbmInitTrie = some trie' ∧
          ((Compacted ((tbmMachine IpV6).exec ∅ docOps) trie trie' ∧
              ∀ lazyMark a, tbmv6Search lazyMark trie' a = tbmv6Search lazyMark trie a) ↔
            ∀ p ∈ (tbmMachine IpV6).exec ∅ docOps, p.cidr = 128 →
              p.ip.iphi ||| (p.ip.iplo &&& 3) = p.ip.iphi) :=
  tbmv6_run_reload_iff engine_legal_docOps

end TreeBitmap
