import TreeBitmap.Overlap
import TreeBitmap.Absent
import TreeBitmap.Canonical

/-!
# Queries and return codes

What the tries tell about the map that they hold, other than by a lookup of an address: the
nearest shorter prefix, whether a prefix is stored, and the return values of the updates.

An insert that returns `1` has stored into one slot of the trie: no bitmap, no pointer and
no length has changed, and the memory manager was not called.

## Main definitions

* `Stored.Nearest T p bitsLimit L nhiOver` — `L` is the length of the nearest shorter prefix.
* `runs_nearest` — **`detect_overlap_generic` finds it**, after any run.
* `MbNode.shape` — a trie without its next hops.
* `ReturnCodes` — what the return values say; `runs_return_codes` — **that they say it**,
  after any run of either engine.
-/

namespace TreeBitmap

open BitString LongestMatch Ranked

variable {α : Type} [IpAddr α]

/-! ## The nearest shorter prefix -/

/-- A prefix that contains another one, is shorter than it and than the limit, and is not the
empty one. -/
structure Prefix.Overlaps (q p : Prefix α) (bitsLimit : ℕ) : Prop where
  covers : q.Matches p.ip
  pos : 1 ≤ q.cidr
  lt : q.cidr < min p.cidr bitsLimit

/-- What `detect_overlap_generic` has to return, and to write to `*nhi_over`. -/
def Stored.Nearest [DecidableEq α] (T : Stored α) (p : Prefix α) (bitsLimit L : ℕ)
    (nhiOver : Option Nhi) : Prop :=
  (∃ q v, T.lookup q = some v ∧ q.Overlaps p bitsLimit ∧
    (∀ q' ∈ T, q'.Overlaps p bitsLimit → q'.cidr ≤ q.cidr) ∧ L = q.cidr ∧ nhiOver = some v) ∨
  (∀ q ∈ T, ¬ q.Overlaps p bitsLimit) ∧ L = 0 ∧ nhiOver = none

theorem Prefix.overlaps_iff {q p : Prefix α} {bitsLimit : ℕ} :
    q.Overlaps p bitsLimit ↔
      q.bits <+: p.bits.take (min p.cidr bitsLimit - 1) ∧ q.bits ≠ [] := by
  have hle : min p.cidr bitsLimit ≤ p.cidr := min_le_left _ _
  have htake : p.bits.take (min p.cidr bitsLimit - 1) =
      (IpAddr.bits p.ip).take (min p.cidr bitsLimit - 1) := by
    rw [Prefix.bits, List.take_take, min_eq_left (by omega)]
  constructor
  · intro h
    obtain ⟨hcovers, hpos, hlt⟩ := h
    refine ⟨?_, List.ne_nil_of_length_pos (q.length_bits ▸ hpos)⟩
    rw [htake, List.prefix_take_iff]
    exact ⟨Prefix.matches_iff.mp hcovers, by rw [q.length_bits]; omega⟩
  · intro h
    obtain ⟨hpre, hne⟩ := h
    have hlen := hpre.length_le
    have hpos := List.length_pos_of_ne_nil hne
    rw [htake] at hpre
    rw [q.length_bits] at hlen hpos
    rw [List.length_take] at hlen
    exact ⟨Prefix.matches_iff.mpr (hpre.trans (List.take_prefix _ _)), hpos, by omega⟩

/-- A trie that holds a map finds the nearest shorter prefix. -/
theorem Mirrors.nearest [DecidableEq α] {st : MbNode × Mm} {T : Stored α} (h : Mirrors st T)
    (p : Prefix α) (bitsLimit : ℕ) :
    ∃ L nhiOver, detectOverlapGeneric st.1 p.ip p.cidr bitsLimit = some (L, nhiOver) ∧
      T.Nearest p bitsLimit L nhiOver := by
  have hdetect := detectOverlapGeneric_eq h.wf p.spells bitsLimit
  rw [p.length_bits, h.get] at hdetect
  refine ⟨_, _, hdetect, ?_⟩
  have hstored : ∀ q ∈ T, q.Overlaps p bitsLimit →
      q.bits <+: p.bits.take (min p.cidr bitsLimit - 1) ∧ T.table q.bits ≠ none ∧ q.bits ≠ [] := by
    intro q hq hover
    obtain ⟨hpre, hne⟩ := Prefix.overlaps_iff.mp hover
    exact ⟨hpre, mem_iff_table.mp hq, hne⟩
  rcases hl : longest T.table (p.bits.take (min p.cidr bitsLimit - 1)) with _ | ⟨u, v⟩
  · have hnone := longest_eq_none_iff.mp hl
    exact .inr ⟨fun q hq hover =>
      (hstored q hq hover).2.1 (hnone _ (hstored q hq hover).1), rfl, rfl⟩
  · obtain ⟨hu, hv, hmax⟩ := longest_eq_some_iff.mp hl
    have hlen : ∀ q ∈ T, q.Overlaps p bitsLimit → q.cidr ≤ u.length := by
      intro q hq hover
      obtain ⟨hpre, htable, -⟩ := hstored q hq hover
      exact q.length_bits ▸ hmax q.bits hpre htable
    cases u with
    | nil =>
        -- the empty prefix does not count
        exact .inr ⟨fun q hq hover => absurd (hlen q hq hover) (by have := hover.pos; simp; omega),
          rfl, rfl⟩
    | cons a u =>
        obtain ⟨q, hbits, hq⟩ := exists_prefix_of_table hv
        have hcidr : q.cidr = u.length + 1 := by rw [← q.length_bits, hbits, List.length_cons]
        refine .inl ⟨q, v, hq, Prefix.overlaps_iff.mpr ⟨hbits ▸ hu, by rw [hbits]; simp⟩,
          fun q' hq' hover => ?_, hcidr.symm, rfl⟩
        rw [hcidr]
        exact hlen q' hq' hover

/-- After any run, `detect` finds the nearest shorter prefix, for every prefix and every
limit. -/
def NearestRuns [DecidableEq α] (step : MbNode × Mm → Op α → Option (MbNode × Mm))
    (detect : MbNode → α → ℕ → ℕ → Option (ℕ × Option Nhi)) : Prop :=
  ∀ m ops, m.Succeeds → (storedMachine α).Legal ∅ ops →
    ∃ root m', ops.foldlM step (.zero, m) = some (root, m') ∧
      ∀ (p : Prefix α) bitsLimit, ∃ L nhiOver,
        detect root p.ip p.cidr bitsLimit = some (L, nhiOver) ∧
        ((storedMachine α).exec ∅ ops).Nearest p bitsLimit L nhiOver

variable (α) in
theorem nearestRuns_trieStep [DecidableEq α] :
    NearestRuns (trieStep (α := α)) detectOverlapGeneric := by
  intro m ops hm hops
  obtain ⟨⟨root, m'⟩, hrun, hmir⟩ := exists_trieStep_run hm hops
  exact ⟨root, m', hrun, hmir.nearest⟩

/-- **`bitmap_detect_overlap_generic` and `bitmapv6_detect_overlap_generic`** return the length
of the nearest shorter prefix below the limit, and write its next hop. -/
theorem runs_nearest : NearestRuns bitmapStep bitmapDetectOverlapGeneric ∧
    NearestRuns bitmapv6Step bitmapv6DetectOverlapGeneric := by
  rw [bitmapStep_eq, bitmapv6Step_eq]
  exact ⟨nearestRuns_trieStep IpV4, nearestRuns_trieStep IpV6⟩

theorem runs_nearest_tenSlash8 :
    ∃ root m', tenOps.foldlM bitmapStep (.zero, mmInit simple) = some (root, m') ∧
      ∀ (p : Prefix IpV4) bitsLimit, ∃ L nhiOver,
        bitmapDetectOverlapGeneric root p.ip p.cidr bitsLimit = some (L, nhiOver) ∧
        ((storedMachine IpV4).exec ∅ tenOps).Nearest p bitsLimit L nhiOver :=
  runs_nearest.1 _ _ succeeds_mmInit_simple legal_tenOps

/-! ## The shape of a trie -/

/-- A trie without its next hops: the bitmaps, the pointers, and the lengths of the arrays. -/
def MbNode.shape (n : MbNode) : MbNode :=
  ⟨n.external, n.internal, n.childPtr, n.rules.map fun _ => 0,
    n.children.attach.map fun c => c.1.shape⟩
termination_by sizeOf n
decreasing_by exact MbNode.sizeOf_lt_of_mem c.2

theorem shape_eq (n : MbNode) :
    n.shape = ⟨n.external, n.internal, n.childPtr, n.rules.map fun _ => 0,
      n.children.map MbNode.shape⟩ := by
  rw [MbNode.shape, List.attach_map_val (f := MbNode.shape)]

/-- The shape of a trie tells which strings it holds. -/
theorem get_shape (n : MbNode) (s : List Bool) : n.shape.get s = (n.get s).map fun _ => 0 := by
  induction s using stride_induction generalizing n with
  | leaf s hs =>
      rw [MbNode.get_of_lt hs, MbNode.get_of_lt hs, MbNode.rule, MbNode.rule, shape_eq,
        lookup_map]
  | inner t s ht ih =>
      rw [MbNode.get_append ht, MbNode.get_append ht, MbNode.kid, MbNode.kid, shape_eq,
        lookup_map]
      cases lookup (members n.external) n.children (value t) with
      | none => rfl
      | some c => exact ih c

theorem shape_putRule (n : MbNode) (pos : ℕ) (nhi : Nhi) : (n.putRule pos nhi).shape = n.shape := by
  have hrules : (n.putRule pos nhi).rules.map (fun _ => (0 : Nhi)) =
      n.rules.map fun _ => (0 : Nhi) := by
    rw [List.map_const', List.map_const', MbNode.putRule, List.length_set]
  rw [shape_eq, shape_eq, hrules]
  rfl

theorem shape_putChild {n c c' : MbNode} {pos : ℕ} (hc : n.kid pos = some c)
    (h : c'.shape = c.shape) : (n.putChild pos c').shape = n.shape := by
  have hget := hc
  rw [MbNode.kid, lookup_of_mem (mem_of_kid hc)] at hget
  obtain ⟨hlt, hv⟩ := List.getElem?_eq_some_iff.mp hget
  have hchildren : (n.putChild pos c').children.map MbNode.shape =
      n.children.map MbNode.shape := by
    have hlt' : rank (members n.external) pos < (n.children.map MbNode.shape).length := by
      rwa [List.length_map]
    have hmap := List.set_getElem_self hlt'
    rw [List.getElem_map, hv, ← h] at hmap
    rw [MbNode.putChild, List.map_set, hmap]
  rw [shape_eq, shape_eq, hchildren]
  rfl

/-- An insert of a string that is stored exchanges its next hop and nothing else. -/
theorem insertPrefix_of_get {m : Mm} {n : MbNode} {w level : ℕ} {ip : α} {s : List Bool}
    (hn : n.Wf w) (hip : Spells ip s) (hs : n.get s ≠ none) (hlevel : level + w / 6 < MAX_LEVEL)
    (nhi : Nhi) :
    ∃ n', insertPrefix m n ip s.length level nhi = some (n', m, 1) ∧ n'.shape = n.shape := by
  induction s using stride_induction generalizing n w ip level with
  | leaf s hlt =>
      have hmem := (marks_internal hn.layout.rules_length s hlt).mpr hs
      refine ⟨n.putRule (inlPos s) nhi, ?_, shape_putRule n _ _⟩
      rw [insertPrefix_of_lt hip hlt, if_pos (testBitmap_iff.mpr hmem),
        assign_pointerToNhi hn.layout hmem]
      rfl
  | inner t s ht ih =>
      rw [MbNode.get_append ht] at hs
      rcases hc : n.kid (value t) with _ | c
      · rw [hc] at hs
        exact absurd rfl hs
      · rw [hc] at hs
        have hw := hn.le_of_kid hc
        have hlevel' : level + 1 + (w - 6) / 6 < MAX_LEVEL := by omega
        obtain ⟨c', hrec, hshape⟩ := ih (hn.kids hc) (hip.lshift_append ht) hs hlevel'
        refine ⟨n.putChild (value t) c', ?_, shape_putChild hc hshape⟩
        exact insertPrefix_append ht hip (by omega)
          (if_pos (testBitmap_iff.mpr (mem_of_kid hc))) hn.layout.children_length hc hrec

/-! ## Return codes -/

/-- What `exist`, `insert` and `delete` return, of a trie that holds `T`. -/
structure ReturnCodes [DecidableEq α] (exist : MbNode → α → ℕ → Option ℤ)
    (insert : MbNode → Mm → α → ℕ → Nhi → Option (MbNode × Mm × ℤ))
    (delete : MbNode → Mm → α → ℕ → Bool → Option (MbNode × Mm × Bool × List Nhi))
    (T : Stored α) (root : MbNode) (m : Mm) : Prop where
  exist : ∀ p : Prefix α, exist root p.ip p.cidr = some (if p ∈ T then 1 else 0)
  /-- `1` exactly for a prefix that is stored, of which only the next hop is exchanged. -/
  insert : ∀ (p : Prefix α) nhi, ∃ root' m' ret, insert root m p.ip p.cidr nhi =
      some (root', m', ret) ∧ ret = (if p ∈ T then 1 else 0) ∧
      root'.get = Function.update root.get p.bits (some nhi) ∧
      (m' = m ∧ root'.shape = root.shape ↔ p ∈ T)
  delete : ∀ p ∈ T, ∀ destroyNhi, ∃ root' m' ret calls, delete root m p.ip p.cidr destroyNhi =
      some (root', m', ret, calls) ∧ (ret = true ↔ T.erase p = ∅)

section Codes

variable [DecidableEq α] {root : MbNode} {m : Mm} {T : Stored α}

/-- A trie that holds a map is empty just if the map is. -/
theorem Mirrors.isEmpty_iff (h : Mirrors (root, m) T) : root.isEmpty = true ↔ T = ∅ := by
  have hget : root.get = T.table := h.get
  constructor
  · intro hempty
    apply Finmap.ext_lookup
    intro p
    rw [← table_bits, ← hget, get_of_isEmpty hempty, Finmap.lookup_empty]
  · intro hT
    by_contra hne
    obtain ⟨s, hs⟩ := exists_get_ne_none h.wf (Bool.eq_false_iff.mpr hne)
    rw [hget, hT, table_empty] at hs
    exact hs rfl

/-- An insert of a prefix that is stored, and no other, leaves the shape of the trie and the
memory manager as they are. -/
theorem Mirrors.insert_code (h : Mirrors (root, m) T) (p : Prefix α) (nhi : Nhi) :
    ∃ root' m' ret, TreeBitmap.insertPrefix m root p.ip p.cidr 0 nhi = some (root', m', ret) ∧
      ret = (if p ∈ T then 1 else 0) ∧ root'.get = Function.update root.get p.bits (some nhi) ∧
      (m' = m ∧ root'.shape = root.shape ↔ p ∈ T) := by
  have hlen : p.bits.length ≤ IpAddr.LENGTH α := p.length_bits ▸ p.cidr_le
  obtain ⟨root', m', hins, hspec⟩ :=
    insertPrefix_spec h.succeeds h.wf p.spells hlen (level_zero α) nhi
  have hret : insertRet root p.bits = if p ∈ T then 1 else 0 := by
    simp only [insertRet, h.isSome_get_iff]
  rw [p.length_bits] at hins
  refine ⟨root', m', _, hins, hret, hspec.get, ?_⟩
  constructor
  · intro hsame
    have hshape := congrArg (fun n => n.get p.bits) hsame.2
    simp only [get_shape, hspec.get, Function.update_self] at hshape
    rw [← h.isSome_get_iff, ← Option.isSome_map (f := fun _ => (0 : Nhi)), ← hshape]
    rfl
  · intro hp
    have hsome := Option.isSome_iff_ne_none.mp ((h.isSome_get_iff p).mpr hp)
    obtain ⟨n', hins', hshape⟩ :=
      insertPrefix_of_get (m := m) h.wf p.spells hsome (level_zero α) nhi
    rw [p.length_bits, hins] at hins'
    obtain ⟨rfl, hrest⟩ := Prod.mk.inj (Option.some.inj hins')
    exact ⟨(Prod.mk.inj hrest).1, hshape⟩

/-- A delete of a stored prefix tells whether it was the last one. -/
theorem Mirrors.delete_code (h : Mirrors (root, m) T) {p : Prefix α} (hp : p ∈ T) (d : Bool) :
    ∃ root' m' ret calls, TreeBitmap.deletePrefix m root p.ip p.cidr d =
      some (root', m', ret, calls) ∧ (ret = true ↔ T.erase p = ∅) := by
  obtain ⟨v, hv⟩ := Finmap.mem_iff.mp hp
  have hvget : root.get p.bits = some v :=
    (congrFun h.get p.bits).trans ((table_bits p).trans hv)
  obtain ⟨root', m', lost, hdel, -⟩ :=
    deletePrefix_spec h.succeeds h.wf p.spells (le_refl _) hvget d
  rw [p.length_bits] at hdel
  obtain ⟨root'', m'', ret, calls, hdel', hmir⟩ := h.deletePrefix hp d
  rw [hdel] at hdel'
  cases hdel'
  exact ⟨root', m', _, _, hdel, hmir.isEmpty_iff⟩

theorem Mirrors.returnCodes (h : Mirrors (root, m) T) :
    ReturnCodes prefixExist (fun n m ip cidr nhi => TreeBitmap.insertPrefix m n ip cidr 0 nhi)
      (fun n m => TreeBitmap.deletePrefix m n) T root m where
  exist := h.exist
  insert := h.insert_code
  delete := fun _ hp d => h.delete_code hp d

end Codes

/-! ## Runs -/

/-- The map under updates of an engine, which turns a default route away. -/
def engineMachine (α : Type) [IpAddr α] [DecidableEq α] : Run.Machine (Stored α) (Op α) where
  legal := (storedMachine α).legal
  step T
    | .insert p nhi => if p.cidr = 0 then T else T.insert p nhi
    | .delete p _ => T.erase p

/-- After any run of the trie, the return values are right. -/
def CodeRuns [DecidableEq α] (step : MbNode × Mm → Op α → Option (MbNode × Mm))
    (exist : MbNode → α → ℕ → Option ℤ)
    (insert : MbNode → Mm → α → ℕ → Nhi → Option (MbNode × Mm × ℤ))
    (delete : MbNode → Mm → α → ℕ → Bool → Option (MbNode × Mm × Bool × List Nhi)) : Prop :=
  ∀ m ops, m.Succeeds → (storedMachine α).Legal ∅ ops →
    ∃ root m', ops.foldlM step (.zero, m) = some (root, m') ∧
      ReturnCodes exist insert delete ((storedMachine α).exec ∅ ops) root m'

/-- After any run of the engine, it knows which prefixes are stored. -/
def ExistRuns [DecidableEq α] (step : TbmTrie → Op α → Option TbmTrie)
    (exist : TbmTrie → α → ℕ → Option ℤ) : Prop :=
  ∀ ops, (engineMachine α).Legal ∅ ops →
    ∃ trie, ops.foldlM step tbmInitTrie = some trie ∧
      ∀ p : Prefix α, exist trie p.ip p.cidr =
        some (if p ∈ (engineMachine α).exec ∅ ops then 1 else 0)

section Runs

variable [DecidableEq α]

theorem engineStep_spec {trie : TbmTrie} {T : Stored α} (h : Pushes trie T) {op : Op α}
    (hlegal : (engineMachine α).legal T op) :
    ∃ trie', leafStep trie op = some trie' ∧ Pushes trie' ((engineMachine α).step T op) := by
  cases op with
  | insert p nhi =>
      by_cases hp : p.cidr = 0
      · refine ⟨trie, ?_, ?_⟩
        · rw [leafStep, tbmInsert, if_pos hp]
          rfl
        · simp only [engineMachine, if_pos hp]
          exact h
      · simp only [engineMachine, if_neg hp]
        exact leafStep_spec h ⟨Nat.one_le_iff_ne_zero.mpr hp, trivial⟩
  | delete p d =>
      have hmem : p ∈ T := hlegal
      exact leafStep_spec h ⟨h.pos p hmem, hmem⟩

variable (α) in
theorem codeRuns_trieStep :
    CodeRuns (α := α) trieStep prefixExist (fun n m ip cidr nhi => insertPrefix m n ip cidr 0 nhi)
      fun n m => deletePrefix m n := by
  intro m ops hm hops
  obtain ⟨⟨root, m'⟩, hrun, hmir⟩ := exists_trieStep_run hm hops
  exact ⟨root, m', hrun, hmir.returnCodes⟩

/-- After any run the engine holds the map. -/
theorem exists_engineStep_run {ops : List (Op α)} (hops : (engineMachine α).Legal ∅ ops) :
    ∃ trie, ops.foldlM leafStep tbmInitTrie = some trie ∧
      Pushes trie ((engineMachine α).exec ∅ ops) := by
  have hstep : ∀ trie T op, Pushes trie T → (engineMachine α).legal T op →
      ∃ trie', leafStep trie op = some trie' ∧ Pushes trie' ((engineMachine α).step T op) :=
    fun _ _ _ h hlegal => engineStep_spec h hlegal
  exact Run.Machine.refines hstep pushes_init hops

variable (α) in
theorem existRuns_leafStep :
    ExistRuns (α := α) leafStep fun trie => prefixExist trie.upAux := by
  intro ops hops
  obtain ⟨trie, hrun, hpush⟩ := exists_engineStep_run hops
  exact ⟨trie, hrun, hpush.aux.returnCodes.exist⟩

end Runs

/-- **The return values are right**, after any run of a trie, and `tbm_prefix_exist` and
`tbmv6_prefix_exist` after any run of an engine. -/
theorem runs_return_codes :
    CodeRuns bitmapStep bitmapPrefixExist bitmapInsertPrefix bitmapDeletePrefix ∧
    CodeRuns bitmapv6Step bitmapv6PrefixExist bitmapv6InsertPrefix bitmapv6DeletePrefix ∧
    ExistRuns tbmStep tbmPrefixExist ∧ ExistRuns tbmv6Step tbmv6PrefixExist := by
  rw [bitmapStep_eq, bitmapv6Step_eq, tbmStep_eq, tbmv6Step_eq]
  exact ⟨codeRuns_trieStep IpV4, codeRuns_trieStep IpV6, existRuns_leafStep IpV4,
    existRuns_leafStep IpV6⟩

theorem every_legal_tenOps : (engineMachine IpV4).Legal ∅ tenOps := by
  have hlegal := legal_tenOps
  exact hlegal

theorem runs_return_codes_tenSlash8 :
    (∃ root m', tenOps.foldlM bitmapStep (.zero, mmInit simple) = some (root, m') ∧
      ReturnCodes bitmapPrefixExist bitmapInsertPrefix bitmapDeletePrefix
        ((storedMachine IpV4).exec ∅ tenOps) root m') ∧
    ∃ trie, tenOps.foldlM tbmStep tbmInitTrie = some trie ∧
      ∀ p : Prefix IpV4, tbmPrefixExist trie p.ip p.cidr =
        some (if p ∈ (engineMachine IpV4).exec ∅ tenOps then 1 else 0) :=
  ⟨runs_return_codes.1 _ _ succeeds_mmInit_simple legal_tenOps,
    runs_return_codes.2.2.1 _ every_legal_tenOps⟩

end TreeBitmap
