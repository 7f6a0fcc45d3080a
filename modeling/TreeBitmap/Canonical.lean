import TreeBitmap.Refinement

/-!
# The shape of a trie

A trie is determined by what it stores.  A node is there just if some stored prefix
goes through it, and the order of its arrays is the order of the set bits, so that
nothing is left of the way in which the trie came about, except for the addresses of
its blocks.

## Main definitions

* `MbNode.contents` — the trie without its pointers.
* `MbNode.nodeAt` — the node for a string of whole strides.
* `contents_eq_of_get_eq` — **equal tables make equal tries**.
* `CanonicalRuns`, `runs_canonical` — what that says about histories of updates.
-/

namespace TreeBitmap

open BitString LongestMatch Ranked

variable {n n' : MbNode} {w : ℕ}

/-- A trie without its pointers: the two bitmaps and the two arrays of every node. -/
def MbNode.contents (n : MbNode) : MbNode :=
  ⟨n.external, n.internal, none, n.rules, n.children.attach.map fun c => c.1.contents⟩
termination_by sizeOf n
decreasing_by exact MbNode.sizeOf_lt_of_mem c.2

theorem contents_eq (n : MbNode) :
    n.contents = ⟨n.external, n.internal, none, n.rules, n.children.map MbNode.contents⟩ := by
  rw [MbNode.contents, List.attach_map_val (f := MbNode.contents)]

/-! ## Equal tables -/

theorem mem_internal_of_get_eq (hn : n.Wf w) (hn' : n'.Wf w) (hget : n.get = n'.get) {pos : ℕ}
    (hpos : pos ∈ members n.internal) : pos ∈ members n'.internal := by
  obtain ⟨t, ht, rfl⟩ := exists_inlPos_eq (hn.internal hpos)
  have hlt : t.length < 6 := by omega
  apply (marks_internal hn'.layout.rules_length t hlt).mpr
  rw [← hget]
  exact (marks_internal hn.layout.rules_length t hlt).mp hpos

theorem mem_external_of_get_eq (hn : n.Wf w) (hget : n.get = n'.get) {pos : ℕ}
    (hpos : pos ∈ members n.external) : pos ∈ members n'.external := by
  obtain ⟨c, hc⟩ := exists_kid hn.layout hpos
  obtain ⟨s, hs⟩ := exists_get_ne_none (hn.kids hc) (hn.full hc)
  obtain ⟨t, ht, rfl⟩ := exists_value_eq (v := pos) (k := 6) (lt_of_mem_members hpos)
  rw [← below_get ht hc, hget, below_apply, MbNode.get_append ht] at hs
  rcases hc' : n'.kid (value t) with _ | c'
  · rw [hc'] at hs
    exact absurd rfl hs
  · exact mem_of_kid hc'

theorem internal_eq_of_get_eq (hn : n.Wf w) (hn' : n'.Wf w) (hget : n.get = n'.get) :
    n.internal = n'.internal := by
  apply members_injective
  ext pos
  exact ⟨mem_internal_of_get_eq hn hn' hget, mem_internal_of_get_eq hn' hn hget.symm⟩

theorem external_eq_of_get_eq (hn : n.Wf w) (hn' : n'.Wf w) (hget : n.get = n'.get) :
    n.external = n'.external := by
  apply members_injective
  ext pos
  exact ⟨mem_external_of_get_eq hn hget, mem_external_of_get_eq hn' hget.symm⟩

theorem rules_eq_of_get_eq (hn : n.Wf w) (hn' : n'.Wf w) (hget : n.get = n'.get) :
    n.rules = n'.rules := by
  have hint := internal_eq_of_get_eq hn hn' hget
  refine eq_of_lookup_eq hn.layout.rules_length (hint ▸ hn'.layout.rules_length) ?_
  intro pos hpos
  obtain ⟨t, ht, rfl⟩ := exists_inlPos_eq (hn.internal hpos)
  have hlt : t.length < 6 := by omega
  have hrule : n.rule (inlPos t) = n'.rule (inlPos t) := by
    rw [← MbNode.get_of_lt hlt, ← MbNode.get_of_lt hlt, hget]
  rw [MbNode.rule, MbNode.rule, ← hint] at hrule
  exact hrule

/-- **Equal tables make equal tries.** -/
theorem contents_eq_of_get_eq (hn : n.Wf w) (hn' : n'.Wf w) (hget : n.get = n'.get) :
    n.contents = n'.contents := by
  induction w using Nat.strong_induction_on generalizing n n' with
  | _ w ih =>
      have hext := external_eq_of_get_eq hn hn' hget
      have hkids : n.children.map MbNode.contents = n'.children.map MbNode.contents := by
        refine eq_of_lookup_eq (S := members n.external) ?_ ?_ fun pos hpos => ?_
        · rw [List.length_map, hn.layout.children_length]
        · rw [List.length_map, hn'.layout.children_length, hext]
        · obtain ⟨c, hc⟩ := exists_kid hn.layout hpos
          have hw := hn.le_of_kid hc
          obtain ⟨c', hc'⟩ := exists_kid hn'.layout (hext ▸ hpos)
          obtain ⟨t, ht, rfl⟩ := exists_value_eq (v := pos) (k := 6) (lt_of_mem_members hpos)
          have hbelow : c.get = c'.get := by
            rw [← below_get ht hc, ← below_get ht hc', hget]
          have hcc := ih (w - 6) (by omega) (hn.kids hc) (hn'.kids hc') hbelow
          rw [MbNode.kid] at hc hc'
          rw [← hext] at hc'
          rw [lookup_map, lookup_map, hc, hc', Option.map_some, Option.map_some, hcc]
      rw [contents_eq, contents_eq, hext, internal_eq_of_get_eq hn hn' hget,
        rules_eq_of_get_eq hn hn' hget, hkids]

/-! ## Nodes -/

/-- The node for a string of whole strides. -/
def MbNode.nodeAt (n : MbNode) (s : List Bool) : Option MbNode :=
  if s = [] then some n
  else (n.kid (value (s.take STRIDE))).bind fun c => c.nodeAt (s.drop STRIDE)
termination_by s.length
decreasing_by
  rw [List.length_drop, STRIDE_eq]
  have := List.length_pos_of_ne_nil ‹s ≠ []›
  omega

@[simp] theorem nodeAt_nil (n : MbNode) : n.nodeAt [] = some n := by
  rw [MbNode.nodeAt, if_pos rfl]

theorem nodeAt_append {t : List Bool} (ht : t.length = 6) (s : List Bool) :
    n.nodeAt (t ++ s) = (n.kid (value t)).bind fun c => c.nodeAt s := by
  have hne : t ++ s ≠ [] := by
    intro h
    have := List.append_eq_nil_iff.mp h
    rw [this.1] at ht
    cases ht
  rw [MbNode.nodeAt, if_neg hne, STRIDE_eq, ← ht, List.take_left, List.drop_left]

/-- A node that is there is well formed, and holds the part of the table under its
string. -/
theorem nodeAt_spec {c : MbNode} (hn : n.Wf w) {k : ℕ} {s : List Bool} (hs : s.length = 6 * k)
    (hc : n.nodeAt s = some c) :
    c.Wf (w - 6 * k) ∧ c.get = below n.get s ∧ (1 ≤ k → c.isEmpty = false) := by
  induction k generalizing n w s with
  | zero =>
      obtain rfl : s = [] := List.length_eq_zero_iff.mp hs
      rw [nodeAt_nil] at hc
      cases hc
      exact ⟨hn, rfl, fun h => absurd h (by omega)⟩
  | succ k ih =>
      obtain ⟨t, u, ht, rfl⟩ : ∃ t u : List Bool, t.length = 6 ∧ t ++ u = s :=
        ⟨s.take 6, s.drop 6, by rw [List.length_take]; omega, List.take_append_drop 6 s⟩
      rw [nodeAt_append ht] at hc
      obtain ⟨d, hd, hc⟩ := Option.bind_eq_some_iff.mp hc
      have hu : u.length = 6 * k := by
        rw [List.length_append] at hs
        omega
      obtain ⟨hwf, hget, hfull⟩ := ih (hn.kids hd) hu hc
      have hw : w - 6 - 6 * k = w - 6 * (k + 1) := by omega
      refine ⟨hw ▸ hwf, ?_, fun _ => ?_⟩
      · rw [hget, ← below_get ht hd, below_below]
      · cases k with
        | zero =>
            obtain rfl : u = [] := List.length_eq_zero_iff.mp hu
            rw [nodeAt_nil] at hc
            cases hc
            exact hn.full hd
        | succ k => exact hfull (by omega)

/-- A node is there if something is stored under its string. -/
theorem exists_nodeAt (hn : n.Wf w) {k : ℕ} {s : List Bool} (hs : s.length = 6 * k) {u : List Bool}
    (hu : n.get (s ++ u) ≠ none) : ∃ c, n.nodeAt s = some c := by
  induction k generalizing n w s with
  | zero =>
      obtain rfl : s = [] := List.length_eq_zero_iff.mp hs
      exact ⟨n, nodeAt_nil n⟩
  | succ k ih =>
      obtain ⟨t, r, ht, rfl⟩ : ∃ t r : List Bool, t.length = 6 ∧ t ++ r = s :=
        ⟨s.take 6, s.drop 6, by rw [List.length_take]; omega, List.take_append_drop 6 s⟩
      rw [List.length_append] at hs
      rw [List.append_assoc, MbNode.get_append ht] at hu
      rw [nodeAt_append ht]
      rcases hd : n.kid (value t) with _ | d
      · rw [hd] at hu
        exact absurd rfl hu
      · rw [hd] at hu
        exact ih (hn.kids hd) (by omega) hu

section Histories

variable {α : Type} [IpAddr α] [DecidableEq α]

/-- The nodes of a trie are those that the stored prefixes call for. -/
structure Canonical (T : Stored α) (root : MbNode) : Prop where
  /-- Only the root may have nothing in it. -/
  full : ∀ k s c, 1 ≤ k → s.length = STRIDE * k → root.nodeAt s = some c →
    c.internal ≠ 0 ∨ c.external ≠ 0
  /-- A node is there just if a stored prefix is there for it. -/
  exists_iff : ∀ k s, 1 ≤ k → s.length = STRIDE * k →
    ((root.nodeAt s).isSome ↔ ∃ p ∈ T, STRIDE * k ≤ p.cidr ∧ s <+: IpAddr.bits p.ip)

theorem Mirrors.canonical {st : MbNode × Mm} {T : Stored α} (h : Mirrors st T) :
    Canonical T st.1 where
  full := by
    intro k s c hk hs hc
    have hne := (nodeAt_spec h.wf hs hc).2.2 hk
    by_contra hnot
    push Not at hnot
    rw [MbNode.isEmpty, hnot.1, hnot.2] at hne
    cases hne
  exists_iff := by
    intro k s hk hs
    rw [STRIDE_eq] at hs ⊢
    constructor
    · intro hsome
      obtain ⟨c, hc⟩ := Option.isSome_iff_exists.mp hsome
      obtain ⟨hwf, hget, hfull⟩ := nodeAt_spec h.wf hs hc
      obtain ⟨u, hu⟩ := exists_get_ne_none hwf (hfull hk)
      rw [hget, below_apply, h.get] at hu
      obtain ⟨v, hv⟩ := Option.ne_none_iff_exists'.mp hu
      obtain ⟨p, hp, hlookup⟩ := exists_prefix_of_table hv
      refine ⟨p, Finmap.mem_of_lookup_eq_some hlookup, ?_, ?_⟩
      · rw [← p.length_bits, hp, List.length_append]
        omega
      · have hpre : s <+: p.bits := hp ▸ List.prefix_append s u
        exact hpre.trans (List.take_prefix _ _)
    · intro hex
      obtain ⟨p, hp, hle, hpre⟩ := hex
      have hbits : s <+: p.bits := by
        apply List.prefix_of_prefix_length_le hpre (List.take_prefix _ _)
        change s.length ≤ p.bits.length
        rw [p.length_bits, hs]
        exact hle
      obtain ⟨u, hu⟩ := hbits
      have hne : st.1.get (s ++ u) ≠ none := by
        rw [hu, h.get]
        exact mem_iff_table.mp hp
      exact Option.isSome_iff_exists.mpr (exists_nodeAt h.wf hs hne)

/-- Two tries that hold one map are equal up to their pointers. -/
theorem Mirrors.contents_eq {st st' : MbNode × Mm} {T : Stored α} (h : Mirrors st T)
    (h' : Mirrors st' T) : st.1.contents = st'.1.contents :=
  contents_eq_of_get_eq h.wf h'.wf (h.get.trans h'.get.symm)

/-- What the updates of a trie leave depends on the map they end with. -/
structure CanonicalRuns (step : MbNode × Mm → Op α → Option (MbNode × Mm)) : Prop where
  /-- After any run the trie has the nodes that the map calls for. -/
  canonical : ∀ m ops, m.Succeeds → (storedMachine α).Legal ∅ ops →
    ∃ root m', ops.foldlM step (.zero, m) = some (root, m') ∧
      Canonical ((storedMachine α).exec ∅ ops) root
  /-- Two histories that end with one map end with one trie. -/
  confluent : ∀ m₁ m₂ ops₁ ops₂, m₁.Succeeds → m₂.Succeeds →
    (storedMachine α).Legal ∅ ops₁ → (storedMachine α).Legal ∅ ops₂ →
    (storedMachine α).exec ∅ ops₁ = (storedMachine α).exec ∅ ops₂ →
    ∃ root₁ m₁' root₂ m₂', ops₁.foldlM step (.zero, m₁) = some (root₁, m₁') ∧
      ops₂.foldlM step (.zero, m₂) = some (root₂, m₂') ∧ root₁.contents = root₂.contents
  /-- An insert of a prefix that was not stored is undone by its delete. -/
  restores : ∀ m ops p nhi destroyNhi, m.Succeeds → (storedMachine α).Legal ∅ ops →
    p ∉ (storedMachine α).exec ∅ ops →
    ∃ root m' root' m'', ops.foldlM step (.zero, m) = some (root, m') ∧
      [Op.insert p nhi, .delete p destroyNhi].foldlM step (root, m') = some (root', m'') ∧
      root'.contents = root.contents

theorem erase_insert_of_notMem {T : Stored α} {p : Prefix α} (hp : p ∉ T) (nhi : Nhi) :
    Finmap.erase p (T.insert p nhi) = T := by
  apply Finmap.ext_lookup
  intro q
  by_cases hq : q = p
  · subst hq
    rw [Finmap.lookup_erase, Finmap.lookup_eq_none.mpr hp]
  · rw [Finmap.lookup_erase_ne hq, Finmap.lookup_insert_of_ne _ hq]

variable (α) in
theorem canonicalRuns_trieStep : CanonicalRuns (trieStep (α := α)) where
  canonical := by
    intro m ops hm hops
    obtain ⟨⟨root, m'⟩, hrun, hmir⟩ := exists_trieStep_run hm hops
    exact ⟨root, m', hrun, hmir.canonical⟩
  confluent := by
    intro m₁ m₂ ops₁ ops₂ hm₁ hm₂ hops₁ hops₂ heq
    obtain ⟨⟨root₁, m₁'⟩, hrun₁, hmir₁⟩ := exists_trieStep_run hm₁ hops₁
    obtain ⟨⟨root₂, m₂'⟩, hrun₂, hmir₂⟩ := exists_trieStep_run hm₂ hops₂
    exact ⟨root₁, m₁', root₂, m₂', hrun₁, hrun₂, hmir₁.contents_eq (heq ▸ hmir₂)⟩
  restores := by
    intro m ops p nhi d hm hops hp
    obtain ⟨⟨root, m'⟩, hrun, hmir⟩ := exists_trieStep_run hm hops
    obtain ⟨st₁, -, hins, hmir₁, -⟩ := trieStep_spec hmir (.insert p nhi) trivial
    obtain ⟨⟨root', m''⟩, -, hdel, hmir₂, -⟩ :=
      trieStep_spec hmir₁ (.delete p d) (Finmap.mem_insert.mpr (.inl rfl))
    have hback : (storedMachine α).step ((storedMachine α).step ((storedMachine α).exec ∅ ops)
        (.insert p nhi)) (.delete p d) = (storedMachine α).exec ∅ ops :=
      erase_insert_of_notMem hp nhi
    rw [hback] at hmir₂
    refine ⟨root, m', root', m'', hrun, ?_, hmir₂.contents_eq hmir⟩
    rw [List.foldlM_cons, hins, Option.bind_eq_bind, Option.bind_some, List.foldlM_cons, hdel]
    rfl

end Histories

/-- **The shape of a trie is a function of what it stores**, in both engines. -/
theorem runs_canonical : CanonicalRuns bitmapStep ∧ CanonicalRuns bitmapv6Step := by
  rw [bitmapStep_eq, bitmapv6Step_eq]
  exact ⟨canonicalRuns_trieStep IpV4, canonicalRuns_trieStep IpV6⟩

/-- An insert and a delete of `10.0.0.0/10`, between prefixes above and below. -/
theorem runs_canonical_tenSlash8 :
    ∃ root m' root' m'', tenOps.foldlM bitmapStep (.zero, mmInit simple) = some (root, m') ∧
      [Op.insert tenSlash10 1, .delete tenSlash10 true].foldlM bitmapStep (root, m') =
        some (root', m'') ∧ root'.contents = root.contents := by
  have hnot : tenSlash10 ∉ (storedMachine IpV4).exec ∅ tenOps := by decide
  exact runs_canonical.1.restores (mmInit simple) tenOps tenSlash10 1 true succeeds_mmInit_simple
    legal_tenOps hnot

end TreeBitmap
