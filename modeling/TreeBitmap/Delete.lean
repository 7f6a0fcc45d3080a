import TreeBitmap.Insert

/-!
# Delete

`delete_prefix` clears one entry of the table.  On the way back up it removes every
node that has become empty, by cutting it out of its parent's array.  The block of
such a node is not given back: its last next hop or child was taken out by a
`reduce_rule` or a `reduce_child`, which left it with a block of no units, and
nobody frees that one.  The ledger therefore closes with a `lost` part, and the
theorem says when that part is empty.

## Main definitions

* `Solitary T s` — `s` is the only string in its node and below.
* `Deleted` — what a delete leaves.
* `updateParent_spec` — one round of `update_nodes`.
* `deleteTrace_spec` — the way down and back up, below any node of the trace.
* `deletePrefix_spec` — the whole operation.
-/

namespace TreeBitmap

open BitString LongestMatch Ranked Ledger

variable {α : Type} [IpAddr α] {m : Mm} {n : MbNode} {w level pos : ℕ}

/-! ## Edits keep a trie well formed -/

theorem wf_withoutRule (hn : n.Wf w) {ptr : Option Ptr} (hl : (n.withoutRule ptr pos).Layout) :
    (n.withoutRule ptr pos).Wf w := by
  refine .intro hl (fun i hi => hn.internal ?_) hn.external (fun _ _ h => hn.kids h)
    (fun _ _ h => hn.full h)
  rw [MbNode.withoutRule, members_clearBitmap] at hi
  exact Finset.mem_of_mem_erase hi

/-- A node that has lost a child of a well-formed node. -/
theorem wf_of_kid_none {n' : MbNode} (hn : n.Wf w) (hl : n'.Layout)
    (hint : n'.internal = n.internal) (hext : members n'.external ⊆ members n.external)
    (hkid : ∀ i, n'.kid i = if i = pos then none else n.kid i) : n'.Wf w := by
  refine .intro hl (fun i hi => hn.internal (hint ▸ hi)) ?_ ?_ ?_
  · intro hw
    rw [hn.external hw] at hext
    exact Finset.subset_empty.mp hext
  all_goals
    intro i d hd
    rw [hkid] at hd
    split at hd
    · cases hd
  · exact hn.kids hd
  · exact hn.full hd

theorem get_of_isEmpty (h : n.isEmpty) : n.get = fun _ => none := by
  obtain ⟨hint, hext⟩ := isEmpty_iff.mp h
  funext s
  rw [MbNode.get]
  split_ifs
  · rw [MbNode.rule, hint, lookup_of_notMem (Finset.notMem_empty _)]
  · rw [MbNode.kid, hext, lookup_of_notMem (Finset.notMem_empty _)]
    rfl

theorem isEmpty_eq_false_of_get {s : List Bool} (h : n.get s ≠ none) : n.isEmpty = false := by
  by_contra he
  rw [Bool.not_eq_false] at he
  exact h (congrFun (get_of_isEmpty he) s)

theorem inner_of_isEmpty {β : Type} (f : ℕ → MbNode → Multiset β) (hn : n.Layout) (h : n.isEmpty)
    (level : ℕ) : n.inner f level = 0 := by
  have hkids : n.children = [] := by
    rw [← List.length_eq_zero_iff, hn.children_length, (isEmpty_iff.mp h).2, Finset.card_empty]
  rw [MbNode.inner, hkids]
  rfl

theorem nhis_of_isEmpty (hn : n.Layout) (h : n.isEmpty) (level : ℕ) : n.nhis level = 0 := by
  have hrules : n.rules = [] := by
    rw [← List.length_eq_zero_iff, hn.rules_length, (isEmpty_iff.mp h).1, Finset.card_empty]
  rw [nhis_eq, inner_of_isEmpty _ hn h, MbNode.ownNhis, hrules]
  rfl

/-- An empty node has at most a block of no units. -/
theorem blocks_of_isEmpty (hn : n.Layout) (h : n.isEmpty) (level : ℕ) :
    n.blocks level = n.own level := by
  rw [blocks_eq, inner_of_isEmpty _ hn h, add_zero]

theorem units_of_isEmpty (h : n.isEmpty) : n.units = 0 := by
  obtain ⟨hint, hext⟩ := isEmpty_iff.mp h
  rw [MbNode.units, countChildren_eq_card, countChildren_eq_card, hint, hext]
  rfl

theorem units_of_mem_own {b : Block} (hb : b ∈ n.own level) : b.units = n.units := by
  rw [MbNode.own, granted] at hb
  rcases h : n.base with _ | p
  · rw [h] at hb
    simp at hb
  · rw [h] at hb
    simp only [Option.elim_some, Multiset.mem_singleton] at hb
    rw [hb]

/-! ## What gets lost -/

/-- The string is the only one in its node and below, and that node is not the root. -/
def Solitary (T : Table Bool Nhi) (s : List Bool) : Prop :=
  6 ≤ s.length ∧ ∀ u, s.take (s.length / 6 * 6) <+: u → T u ≠ none → u = s

/-- Seen from the parent of its node, a string is solitary if it is alone under its
first six bits. -/
theorem solitary_of_lt {T : Table Bool Nhi} {t s : List Bool} (ht : t.length = 6)
    (hs : s.length < 6) : Solitary T (t ++ s) ↔ ∀ u, below T t u ≠ none → u = s := by
  have htake : (t ++ s).take ((t ++ s).length / 6 * 6) = t := by
    have hlen : (6 + s.length) / 6 * 6 = 6 := by omega
    rw [List.length_append, ht, hlen, ← ht, List.take_left]
  rw [Solitary, htake]
  constructor
  · intro h u hu
    exact List.append_cancel_left (h.2 (t ++ u) (List.prefix_append t u) hu)
  · intro h
    refine ⟨by rw [List.length_append]; omega, fun a ha hT => ?_⟩
    obtain ⟨u, rfl⟩ := ha
    rw [h u hT]

theorem solitary_of_le {T : Table Bool Nhi} {t s : List Bool} (ht : t.length = 6)
    (hs : 6 ≤ s.length) : Solitary T (t ++ s) ↔ Solitary (below T t) s := by
  have htake : (t ++ s).take ((t ++ s).length / 6 * 6) = t ++ s.take (s.length / 6 * 6) := by
    have hlen : (6 + s.length) / 6 * 6 = 6 + s.length / 6 * 6 := by omega
    rw [List.length_append, ht, hlen, ← ht, List.take_length_add_append]
  rw [Solitary, Solitary, htake]
  constructor
  · intro h
    refine ⟨hs, fun u hu hT => ?_⟩
    exact List.append_cancel_left (h.2 (t ++ u) ((List.prefix_append_right_inj t).mpr hu) hT)
  · intro h
    refine ⟨by rw [List.length_append]; omega, fun a ha hT => ?_⟩
    obtain ⟨u, rfl⟩ := ha
    rw [List.append_assoc] at hT ⊢
    rw [h.2 _ (List.prefix_append _ _) hT]

/-- A string that is not solitary has company in its child of the root. -/
theorem exists_of_not_solitary {T : Table Bool Nhi} {t s : List Bool} (ht : t.length = 6)
    (h : ¬ Solitary T (t ++ s)) : ∃ u, u ≠ s ∧ below T t u ≠ none := by
  by_contra hnone
  push Not at hnone
  refine h ⟨by rw [List.length_append]; omega, ?_⟩
  intro u hu hT
  have htu : t <+: u := by
    refine List.IsPrefix.trans ?_ hu
    apply List.prefix_of_prefix_length_le (List.prefix_append t s) (List.take_prefix _ _)
    rw [List.length_take, List.length_append]
    omega
  obtain ⟨v, rfl⟩ := htu
  by_contra hne
  exact hT (hnone v fun hv => hne (by rw [hv]))

/-- What a delete of `s`, with next hop `v`, leaves.  The blocks in `lost` belong
to nobody afterwards. -/
structure Deleted (level w : ℕ) (s : List Bool) (v : Nhi) (lost : Multiset Block) (m m' : Mm)
    (n n' : MbNode) : Prop where
  wf : n'.Wf w
  get : n'.get = Function.update n.get s none
  op : m'.op = m.op
  trades : mmBook.Trades m m' (n.blocks level) (n'.blocks level + lost)
  units : ∀ b ∈ lost, b.units = 0
  nhis : n'.nhis level + {v} = n.nhis level
  kept : ¬ Solitary n.get s → lost = 0
  pruned : m.Grants → Solitary n.get s → lost ≠ 0
  block : m.Grants → s.length < 6 → n'.childPtr ≠ none

theorem Mm.Grants.of_op_eq {m m' : Mm} (h : m.Grants) (hop : m'.op = m.op) : m'.Grants := by
  intro calls nodeNum level
  rw [hop]
  exact h calls nodeNum level

theorem deleteLeaf_spec (hok : m.Succeeds) (hlevel : level < MAX_LEVEL) (hn : n.Wf w)
    {s : List Bool} (hlt : s.length < 6) {v : Nhi} (hv : n.get s = some v) :
    ∃ n' m', reduceRule m n (inlPos s) level = some (n', m') ∧ Deleted level w s v 0 m m' n n' := by
  have hrule : n.rule (inlPos s) = some v := (MbNode.get_of_lt hlt).symm.trans hv
  have hmem := mem_of_rule hrule
  obtain ⟨ptr, m', hred, hop, hl, hgrants, htrade⟩ := reduceRule_spec hok hlevel hn.layout hmem
  obtain ⟨rest, hold, -, hdrop⟩ := exists_ownNhis_eq hn.layout hrule level
  have hshort : ¬ Solitary n.get s := fun h => absurd h.1 (by omega)
  refine ⟨n.withoutRule ptr (inlPos s), m', hred, wf_withoutRule hn hl, ?_, hop, ?_, by simp, ?_,
    fun _ => rfl, fun _ h => absurd h hshort, fun h _ => hgrants h⟩
  · exact get_eq_update_of_lt hlt (rule_withoutRule hmem ptr) fun _ => rfl
  · rw [add_zero, blocks_eq, blocks_eq, inner_withoutRule]
    exact (htrade.frame (n.inner MbNode.own level)).congr (add_comm _ _) (add_comm _ _)
  · rw [nhis_eq, nhis_eq, inner_withoutRule, hold, hdrop]
    abel

section Parent

variable {m₁ : Mm} {t s : List Bool} {c c' : MbNode} {v : Nhi} {lost : Multiset Block}

/-- Beside a changed child, the table is as it was. -/
theorem below_of_kid_update {n' : MbNode} {x : Option MbNode} {u : List Bool} (ht : t.length = 6)
    (hkid : ∀ i, n'.kid i = if i = value t then x else n.kid i) (hu : u.length = 6)
    (hne : u ≠ t) : below n'.get u = below n.get u := by
  funext a
  rw [below_apply, below_apply, MbNode.get_append hu, MbNode.get_append hu, hkid, if_neg]
  exact fun he => hne (value_injective (hu.trans ht.symm) he)

/-- Company in the child keeps the child, and with it every block. -/
theorem Deleted.company (h : Deleted (level + 1) (w - 6) s v lost m m₁ c c') (ht : t.length = 6)
    (hc : n.kid (value t) = some c) (hsol : ¬ Solitary n.get (t ++ s)) :
    c'.isEmpty = false ∧ lost = 0 := by
  have hbelow := below_get ht hc
  obtain ⟨u, hne, hu⟩ := exists_of_not_solitary ht hsol
  rw [hbelow] at hu
  refine ⟨isEmpty_eq_false_of_get (s := u) ?_, h.kept fun hcs => ?_⟩
  · rw [h.get, Function.update_of_ne hne]
    exact hu
  · exact hsol ((solitary_of_le ht hcs.1).mpr (hbelow ▸ hcs))

/-- Without company in a node below the child, a block is lost there. -/
theorem Deleted.lost_ne_zero (h : Deleted (level + 1) (w - 6) s v lost m m₁ c c')
    (ht : t.length = 6) (hc : n.kid (value t) = some c) (hg : m.Grants)
    (hsol : Solitary n.get (t ++ s)) (hs : 6 ≤ s.length) : lost ≠ 0 := by
  apply h.pruned hg
  rw [← below_get ht hc]
  exact (solitary_of_le ht hs).mp hsol

/-- The changed child `c'` is put back. -/
theorem keepChild_spec (hn : n.Wf w) (hw : 6 ≤ w) (ht : t.length = 6)
    (hc : n.kid (value t) = some c) (h : Deleted (level + 1) (w - 6) s v lost m m₁ c c')
    (he : c'.isEmpty = false) :
    Deleted level w (t ++ s) v lost m m₁ n (n.putChild (value t) c') := by
  have hput := kid_putChild hn.layout (mem_of_kid hc) c'
  have hput_self : (n.putChild (value t) c').kid (value t) = some c' := by
    rw [hput, if_pos rfl]
  have hnhis := nhis_putChild hn.layout hc (h.nhis.trans (add_zero _).symm)
  refine ⟨wf_of_kid hn hw (layout_putChild hn.layout _ _) rfl hput h.wf he, ?_, h.op,
    trades_putChild hn.layout hc h.trades, h.units, hnhis.trans (add_zero _),
    fun hsol => (h.company ht hc hsol).2, fun hg hsol => ?_, fun _ hs => ?_⟩
  · refine get_eq_update ht (fun u hu => ?_)
      (fun u hu hne => below_of_kid_update ht hput hu hne) ?_
    · rw [MbNode.get_of_lt hu, MbNode.get_of_lt hu]
      rfl
    · rw [below_get ht hput_self, h.get, below_get ht hc]
  · by_cases hs : s.length < 6
    · -- what is left in the child would be company
      obtain ⟨u, hu⟩ := exists_get_ne_none h.wf he
      rw [h.get] at hu
      have hus : u = s := by
        by_contra hne
        rw [Function.update_of_ne hne, ← below_get ht hc] at hu
        exact hne ((solitary_of_lt ht hs).mp hsol u hu)
      rw [hus, Function.update_self] at hu
      exact absurd rfl hu
    · exact h.lost_ne_zero ht hc hg hsol (by omega)
  · rw [List.length_append] at hs
    omega

/-- The changed child `c'` has become empty, and is cut out.  Its block is lost. -/
theorem cutChild_spec (hlevel : level < MAX_LEVEL) (hok : m₁.Succeeds) (hn : n.Wf w)
    (ht : t.length = 6) (hc : n.kid (value t) = some c)
    (h : Deleted (level + 1) (w - 6) s v lost m m₁ c c') (he : c'.isEmpty) :
    ∃ n' m', reduceChild m₁ (n.putChild (value t) c') (value t) level = some (n', m') ∧
      Deleted level w (t ++ s) v (c'.blocks (level + 1) + lost) m m' n n' := by
  have hmem := mem_of_kid hc
  have hlay := layout_putChild hn.layout (value t) c'
  have hput := kid_putChild hn.layout hmem c'
  have hput_self : (n.putChild (value t) c').kid (value t) = some c' := by
    rw [hput, if_pos rfl]
  obtain ⟨ptr, m', hred, hop, hl, htrade⟩ := reduceChild_spec hok hlevel hlay hmem
  have hkid : ∀ i, ((n.putChild (value t) c').withoutChild ptr (value t)).kid i =
      if i = value t then none else n.kid i := by
    intro i
    rw [kid_withoutChild (n := n.putChild (value t) c') hmem, hput]
    split_ifs <;> rfl
  have hown := blocks_of_isEmpty h.wf.layout he (level + 1)
  refine ⟨(n.putChild (value t) c').withoutChild ptr (value t), m', hred, ?_, ?_, hop.trans h.op,
    ?_, fun b hb => ?_, ?_, fun hsol => ?_, fun hg hsol hzero => ?_, fun _ hs => ?_⟩
  · refine wf_of_kid_none hn hl rfl ?_ hkid
    rw [MbNode.withoutChild, members_clearBitmap]
    exact Finset.erase_subset _ _
  · refine get_eq_update ht (fun u hu => ?_)
      (fun u hu hne => below_of_kid_update ht hkid hu hne) ?_
    · rw [MbNode.get_of_lt hu, MbNode.get_of_lt hu]
      rfl
    · rw [below_get_of_none ht (by rw [hkid, if_pos rfl]), below_get ht hc, ← h.get,
        get_of_isEmpty he]
  · obtain ⟨rest, hold, -, hdrop⟩ := exists_inner_eq MbNode.own level hlay hput_self
    refine (trades_putChild hn.layout hc h.trades).trans ?_
    rw [blocks_eq, blocks_eq, hold, hdrop]
    refine (htrade.frame (c'.blocks (level + 1) + rest + lost)).congr ?_ ?_
    · rw [MbNode.blocks]
      abel
    · abel
  · rcases Multiset.mem_add.mp hb with hb | hb
    · rw [units_of_mem_own (hown ▸ hb), units_of_isEmpty he]
    · exact h.units b hb
  · obtain ⟨rest, hold, -, hdrop⟩ := exists_inner_eq MbNode.ownNhis level hlay hput_self
    have hnhis := nhis_putChild hn.layout hc (h.nhis.trans (add_zero _).symm)
    have hnone : c'.collect MbNode.ownNhis (level + 1) = 0 := nhis_of_isEmpty h.wf.layout he _
    rw [nhis_eq, hdrop, ← add_zero (n.nhis level), ← hnhis, nhis_eq, hold, hnone, zero_add]
    rfl
  · rw [(h.company ht hc hsol).1] at he
    cases he
  · obtain ⟨hown0, hlost0⟩ := add_eq_zero.mp hzero
    by_cases hs : s.length < 6
    · -- the block of the emptied child itself is the one that is lost
      rw [hown, MbNode.own, granted, MbNode.base] at hown0
      rcases hp : c'.childPtr with _ | p
      · exact h.block hg hs hp
      · rw [hp] at hown0
        simp at hown0
    · exact h.lost_ne_zero ht hc hg hsol (by omega) hlost0
  · rw [List.length_append] at hs
    omega

/-- One round of `update_nodes` above the last node: the changed child `c'` is put
back, and cut out if it has become empty. -/
theorem updateParent_spec (hlevel : level < MAX_LEVEL) (hok : m₁.Succeeds) (hn : n.Wf w)
    (hw : 6 ≤ w) (ht : t.length = 6) (hc : n.kid (value t) = some c)
    (h : Deleted (level + 1) (w - 6) s v lost m m₁ c c') :
    ∃ n₁ n' m' lost', n.setChild (value t) c' = some n₁ ∧
      (if c'.isEmpty then reduceChild m₁ n₁ (value t) level else some (n₁, m₁)) = some (n', m') ∧
      Deleted level w (t ++ s) v lost' m m' n n' := by
  have hset := setChild_eq_putChild hn.layout.children_length (mem_of_kid hc) c'
  by_cases he : c'.isEmpty
  · obtain ⟨n', m', hred, hdel⟩ := cutChild_spec hlevel hok hn ht hc h he
    refine ⟨_, n', m', _, hset, ?_, hdel⟩
    rw [if_pos he]
    exact hred
  · refine ⟨_, n.putChild (value t) c', m₁, lost, hset, ?_, ?_⟩
    · rw [if_neg he]
    · exact keepChild_spec hn hw ht hc h (Bool.eq_false_iff.mpr he)

end Parent

/-! ## The way down -/

section Trace

variable {ip : α} {s : List Bool} {trace : List (MbNode × ℕ)}

/-- The way down at its last node. -/
theorem deleteTrace_of_lt (hip : Spells ip s) (hs : s.length < 6)
    (hlevel : trace.length < LEVEL α) :
    deleteTrace n ip s.length trace = some ((n, inlPos s) :: trace) := by
  have hguard : guard (trace.length < LEVEL α) = some () := if_pos hlevel
  rw [deleteTrace, if_pos (by exact hs), hip.leafPos_eq hs, hguard]
  rfl

/-- The way down at a node before. -/
theorem deleteTrace_append {t : List Bool} (ht : t.length = 6) (hip : Spells ip (t ++ s))
    (hlevel : trace.length < LEVEL α) :
    deleteTrace n ip (t ++ s).length trace = (n.child (value t)).bind fun c =>
      deleteTrace c (IpAddr.lshift ip 6) s.length ((n, value t) :: trace) := by
  have hguard : guard (trace.length < LEVEL α) = some () := if_pos hlevel
  have hlen : (t ++ s).length = s.length + 6 := by rw [List.length_append, ht, Nat.add_comm]
  rw [deleteTrace, if_neg (by rw [STRIDE_eq]; omega), hip.strideOf_append ht, hlen]
  simp only [countEnlBitmap, STRIDE_eq, hguard, Option.bind_eq_bind, Option.bind_some,
    Nat.add_sub_cancel]

theorem level_nil (hw : w ≤ IpAddr.LENGTH α) :
    ([] : List (MbNode × ℕ)).length + w / 6 < LEVEL α := by
  have hdiv := Nat.div_le_div_right (c := 6) hw
  rw [LEVEL, STRIDE_eq, List.length_nil]
  omega

/-- The way down from a node and back up to it: when `update_nodes` has come back to
the entry of this node in the trace, the delete has been made below it. -/
theorem deleteTrace_spec (hok : m.Succeeds) (hn : n.Wf w) (hip : Spells ip s) {v : Nhi}
    (hv : n.get s = some v) (hlevel : trace.length + w / 6 < LEVEL α) :
    ∃ last pos frames n' m' lost,
      deleteTrace n ip s.length trace = some ((last, pos) :: frames) ∧
      (pointerToNhi last pos).deref = some v ∧
      updateNodes m ((last, pos) :: frames) = updateParents m' n' n'.isEmpty trace ∧
      Deleted trace.length w s v lost m m' n n' := by
  have hmax := LEVEL_le_MAX_LEVEL α
  induction s using stride_induction generalizing m n w ip trace with
  | leaf s hlt =>
      have hlevel₀ : trace.length < MAX_LEVEL := by omega
      obtain ⟨n', m', hred, hdel⟩ := deleteLeaf_spec hok hlevel₀ hn hlt hv
      have hrule : n.rule (inlPos s) = some v := (MbNode.get_of_lt hlt).symm.trans hv
      refine ⟨n, inlPos s, trace, n', m', 0, deleteTrace_of_lt hip hlt (by omega), ?_, ?_, hdel⟩
      · rw [deref_pointerToNhi (mem_of_rule hrule), hrule]
      · rw [updateNodes, hred]
        rfl
  | inner t s ht ih =>
      have hlevel₀ : trace.length < MAX_LEVEL := by omega
      rw [MbNode.get_append ht] at hv
      obtain ⟨c, hc, hvc⟩ := Option.bind_eq_some_iff.mp hv
      have hw := hn.le_of_kid hc
      have hlevel₁ : ((n, value t) :: trace).length + (w - 6) / 6 < LEVEL α := by
        rw [List.length_cons]
        omega
      obtain ⟨last, pos, frames, c', m₁, lost, htrace, hderef, hup, hdel⟩ :=
        ih hok (hn.kids hc) (hip.lshift_append ht) hvc hlevel₁
      obtain ⟨n₁, n', m', lost', hset, hred, hdel'⟩ :=
        updateParent_spec hlevel₀ (hok.of_op_eq hdel.op) hn hw ht hc hdel
      refine ⟨last, pos, frames, n', m', lost', ?_, hderef, ?_, hdel'⟩
      · have hchild : n.child (value t) = some c := load_nextChild hc
        rw [deleteTrace_append ht hip (by omega), hchild, Option.bind_some, htrace]
      · rw [hup, updateParents, hset]
        simp only [Option.bind_eq_bind, Option.bind_some, hred]

end Trace

/-- **`delete_prefix` clears one entry of the table**, returns whether nothing is
left, and gives the next hop of that entry to `destroy_nhi`. -/
theorem deletePrefix_spec (hok : m.Succeeds) (hn : n.Wf w) {ip : α} {s : List Bool}
    (hip : Spells ip s) (hw : w ≤ IpAddr.LENGTH α) {v : Nhi} (hv : n.get s = some v)
    (destroyNhi : Bool) :
    ∃ n' m' lost, deletePrefix m n ip s.length destroyNhi =
        some (n', m', n'.isEmpty, if destroyNhi then [v] else []) ∧
      Deleted 0 w s v lost m m' n n' := by
  obtain ⟨last, pos, frames, n', m', lost, htrace, hderef, hup, hdel⟩ :=
    deleteTrace_spec hok hn hip hv (level_nil hw)
  refine ⟨n', m', lost, ?_, hdel⟩
  rw [updateParents] at hup
  rw [deletePrefix, htrace]
  cases destroyNhi <;> simp [hderef, hup]

end TreeBitmap
