import TreeBitmap.Canonical
import TreeBitmap.Packed

/-!
# The two builds side by side

The `COMPRESS_NHI` build and the plain build go through the same nodes.  As long as every
update leaves the slots alone that the other prefixes of its node use, corresponding nodes
hold the same next hops, and both builds answer alike.

## Main definitions

* `Compresses c n` — the trie `c` of this build stands for the trie `n` of the plain build.
* `Harmless root op` — the update disturbs no other prefix of its node.
* `insertPrefix_spec`, `deletePrefix_spec`, `doSearch_eq` — one call in both builds.
* `bitmap_run_agrees` — **runs of harmless updates**.
-/

namespace TreeBitmap

namespace CompressNhi

open BitString LongestMatch Ranked
open IpAddr (lshift)

variable {α : Type} [IpAddr α] {m m' : Mm} {c n : MbNode} {w level pos : ℕ} {nhi : Nhi}

/-- Node by node, the trie `c` has the shape of `n` and holds its next hops. -/
inductive Compresses : MbNode → MbNode → Prop
  | intro {c n : MbNode} (layout : n.Layout) (external : c.external = n.external)
      (internal : c.internal = n.internal) (length : c.children.length = n.children.length)
      (packed : Packed c n.rule)
      (kids : ∀ pos c' n', c.kid pos = some c' → n.kid pos = some n' → Compresses c' n') :
      Compresses c n

namespace Compresses

theorem layout (h : Compresses c n) : n.Layout := by
  cases h
  assumption

theorem external (h : Compresses c n) : c.external = n.external := by
  cases h
  assumption

theorem internal (h : Compresses c n) : c.internal = n.internal := by
  cases h
  assumption

theorem packed (h : Compresses c n) : Packed c n.rule := by
  cases h
  assumption

theorem kids (h : Compresses c n) {c' n' : MbNode} (hc : c.kid pos = some c')
    (hn : n.kid pos = some n') : Compresses c' n' := by
  cases h with
  | intro _ _ _ _ _ hkids => exact hkids pos c' n' hc hn

theorem children_length (h : Compresses c n) :
    c.children.length = (members c.external).card := by
  cases h with
  | intro hl hext _ hlen _ _ => rw [hlen, hl.children_length, hext]

theorem exists_kid (h : Compresses c n) {n' : MbNode} (hn : n.kid pos = some n') :
    ∃ c', c.kid pos = some c' ∧ Compresses c' n' := by
  have hmem : pos ∈ members c.external := h.external ▸ mem_of_kid hn
  obtain ⟨c', hc⟩ := Option.isSome_iff_exists.mp (lookup_isSome h.children_length hmem)
  exact ⟨c', hc, h.kids hc hn⟩

theorem isEmpty_eq (h : Compresses c n) : c.isEmpty = n.isEmpty := by
  rw [MbNode.isEmpty, MbNode.isEmpty, h.external, h.internal]

end Compresses

theorem compresses_zero : Compresses .zero .zero :=
  .intro layout_zero rfl rfl rfl (packed_zero _) (by simp)

/-! ## Edits in both builds -/

/-- An edit of the next hops. -/
theorem Compresses.edit {c' n' : MbNode} {f : ℕ → Option Nhi} (h : Compresses c n)
    (hl : n'.Layout) (hint : c'.internal = n'.internal) (hext : n'.external = n.external)
    (hkids : n'.children = n.children) (he : Edited c c' f m m')
    (hf : ∀ i ∈ members c'.internal, n'.rule i = f i) : Compresses c' n' := by
  refine .intro hl ?_ hint ?_ (he.packed.congr hf) fun i d e hd hne => ?_
  · rw [he.external, hext, h.external]
  · rw [he.children, hkids, h.children_length, h.layout.children_length, h.external]
  · rw [MbNode.kid, he.external, he.children] at hd
    rw [MbNode.kid, hext, hkids] at hne
    exact h.kids hd hne

/-- Another child, in both builds. -/
theorem Compresses.putChild {d e : MbNode} (h : Compresses c n) (hmem : pos ∈ members n.external)
    (hde : Compresses d e) : Compresses (c.putChild pos d) (n.putChild pos e) := by
  refine .intro (layout_putChild h.layout pos e) h.external h.internal ?_ h.packed ?_
  · simp only [MbNode.putChild, List.length_set]
    rw [h.children_length, h.layout.children_length, h.external]
  · intro i d' e' hd' he'
    have hmem' : pos ∈ members c.external := h.external ▸ hmem
    rw [kid_putChild h.layout hmem] at he'
    rw [MbNode.kid, MbNode.putChild, lookup_set h.children_length hmem'] at hd'
    split_ifs at hd' he'
    · cases hd'
      cases he'
      exact hde
    · exact h.kids hd' he'

/-- A zero child more, in both builds. -/
theorem extendChild_compresses (hok : m.Succeeds) (hok' : m'.Succeeds) (hlevel : level < MAX_LEVEL)
    (h : Compresses c n) (hpos : pos < 64) (hclear : pos ∉ members n.external) :
    ∃ c₁ m₁ ptr m₁', extendChild m c level pos = some (c₁, nextChild c₁ pos, m₁) ∧
      TreeBitmap.extendChild m' n level pos =
        some (n.withChild ptr pos, nextChild (n.withChild ptr pos) pos, m₁') ∧
      Compresses c₁ (n.withChild ptr pos) ∧ c₁.kid pos = some .zero ∧
      m₁.op = m.op ∧ m₁'.op = m'.op := by
  obtain ⟨c₁, m₁, hc, hext, hint, hchildren, hpacked, hop⟩ :=
    extendChild_spec hok hlevel h.children_length h.packed hpos
  obtain ⟨ptr, m₁', hn, hop', hptr, -⟩ :=
    TreeBitmap.extendChild_spec hok' hlevel h.layout hpos hclear
  have hclear' : pos ∉ members c.external := h.external ▸ hclear
  have hkid : ∀ i, c₁.kid i = if i = pos then some .zero else c.kid i := by
    intro i
    rw [MbNode.kid, hext, hchildren, members_setBitmap hpos,
      lookup_insert h.children_length hclear']
    rfl
  refine ⟨c₁, m₁, ptr, m₁', hc, hn, ?_, by rw [hkid, if_pos rfl], hop, hop'⟩
  refine .intro (layout_withChild h.layout hpos hclear hptr) ?_ (hint.trans h.internal) ?_ ?_ ?_
  · rw [hext, h.external]
    rfl
  · simp only [hchildren, MbNode.withChild]
    rw [List.length_insertIdx_of_le_length (h.children_length ▸ rank_le_card _ _),
      List.length_insertIdx_of_le_length (h.layout.children_length ▸ rank_le_card _ _),
      h.children_length, h.layout.children_length, h.external]
  · exact hpacked
  · intro i d e hd he
    rw [kid_withChild h.layout hpos hclear] at he
    rw [hkid] at hd
    split_ifs at hd he
    · cases hd
      cases he
      exact compresses_zero
    · exact h.kids hd he

/-- A child less, in both builds. -/
theorem reduceChild_compresses (hok : m.Succeeds) (hok' : m'.Succeeds) (hlevel : level < MAX_LEVEL)
    (h : Compresses c n) (hset : pos ∈ members n.external) :
    ∃ c₁ m₁ n₁ m₁', reduceChild m c pos level = some (c₁, m₁) ∧
      TreeBitmap.reduceChild m' n pos level = some (n₁, m₁') ∧ Compresses c₁ n₁ ∧
      m₁.op = m.op ∧ m₁'.op = m'.op := by
  have hset' : pos ∈ members c.external := h.external ▸ hset
  obtain ⟨c₁, m₁, hc, hext, hint, hchildren, hpacked, hop⟩ :=
    reduceChild_spec hok hlevel h.children_length h.packed hset'
  obtain ⟨ptr, m₁', hn, hop', hl, -⟩ := TreeBitmap.reduceChild_spec hok' hlevel h.layout hset
  refine ⟨c₁, m₁, _, m₁', hc, hn, .intro hl ?_ (hint.trans h.internal) ?_ hpacked ?_, hop, hop'⟩
  · rw [hext, h.external]
    rfl
  · simp only [hchildren, MbNode.withoutChild]
    rw [List.length_eraseIdx_of_lt (h.children_length ▸ rank_lt_card hset'),
      List.length_eraseIdx_of_lt (h.layout.children_length ▸ rank_lt_card hset),
      h.children_length, h.layout.children_length, h.external]
  · intro i d e hd he
    rw [kid_withoutChild hset] at he
    rw [MbNode.kid, hext, hchildren, members_clearBitmap, lookup_erase hset'] at hd
    split_ifs at hd he
    exact h.kids hd he

/-! ## Harmless updates -/

/-- The insert of `nhi` leaves the other next hops of the node alone.  A prefix that is
there already has to be the only one that uses its slot, or gets the next hop it has; a new
one has to share the slot of the next position, or to come between no two positions that
share one. -/
def InsertFits (c : MbNode) (pos : ℕ) (nhi : Nhi) : Prop :=
  if testBitmap c.internal pos then Reads c pos nhi ∨ Owns c pos ∧ Screened c pos
  else SharesNext c pos nhi ∨ Screened c pos

/-- The delete leaves the other next hops of the node alone: the prefix uses the slot of
another one, or is the only one that uses its own, or the next slot has the same next
hop. -/
def DeleteFits (c : MbNode) (pos : ℕ) : Prop :=
  ¬ Owns c pos ∨ Screened c pos ∨ ∃ v, Reads c pos v ∧ SharesNext c pos v

/-- The bits of a prefix that lead to its node. -/
def nodeBits (s : List Bool) : List Bool := s.take (s.length / STRIDE * STRIDE)

/-- The position of a prefix in its node. -/
def leafIdx (s : List Bool) : ℕ := inlPos (s.drop (s.length / STRIDE * STRIDE))

/-- The update disturbs no other prefix of its node, if there is such a node. -/
def Harmless (root : MbNode) : Op α → Prop
  | .insert p nhi => ∀ d, root.nodeAt (nodeBits p.bits) = some d → InsertFits d (leafIdx p.bits) nhi
  | .delete p _ => ∀ d, root.nodeAt (nodeBits p.bits) = some d → DeleteFits d (leafIdx p.bits)

theorem nodeBits_of_lt {s : List Bool} (hs : s.length < 6) : nodeBits s = [] := by
  rw [nodeBits, STRIDE_eq, Nat.div_eq_of_lt hs, Nat.zero_mul, List.take_zero]

theorem leafIdx_of_lt {s : List Bool} (hs : s.length < 6) : leafIdx s = inlPos s := by
  rw [leafIdx, STRIDE_eq, Nat.div_eq_of_lt hs, Nat.zero_mul, List.drop_zero]

theorem nodeBits_append {t : List Bool} (ht : t.length = 6) (s : List Bool) :
    nodeBits (t ++ s) = t ++ nodeBits s := by
  have hlen : (6 + s.length) / 6 * 6 = 6 + s.length / 6 * 6 := by omega
  rw [nodeBits, nodeBits, STRIDE_eq, List.length_append, ht, hlen, ← ht,
    List.take_length_add_append]

theorem leafIdx_append {t : List Bool} (ht : t.length = 6) (s : List Bool) :
    leafIdx (t ++ s) = leafIdx s := by
  have hlen : (6 + s.length) / 6 * 6 = 6 + s.length / 6 * 6 := by omega
  rw [leafIdx, leafIdx, STRIDE_eq, List.length_append, ht, hlen, ← ht,
    List.drop_length_add_append]

/-- In a zero node every insert is harmless. -/
theorem insertFits_zero (pos : ℕ) (nhi : Nhi) : InsertFits .zero pos nhi := by
  rw [InsertFits, MbNode.internal_zero, if_neg (by simp [testBitmap])]
  right
  intro mask _
  rw [MbNode.internal_zero, members_zero]
  exact detached_empty _ _

theorem insertFits_nodeAt_zero {s : List Bool} {d : MbNode}
    (hd : MbNode.zero.nodeAt s = some d) (pos : ℕ) : InsertFits d pos nhi := by
  rw [MbNode.nodeAt] at hd
  split_ifs at hd
  · cases hd
    exact insertFits_zero pos nhi
  · rw [kid_zero] at hd
    cases hd

/-! ## Insert -/

theorem insertLeaf_compresses (hok : m.Succeeds) (hok' : m'.Succeeds) (hlevel : level < MAX_LEVEL)
    (h : Compresses c n) (hpos : pos < 63) (hfit : InsertFits c pos nhi) :
    ∃ c₁ m₁ n₁ m₁' ret,
      (if testBitmap c.internal pos then do
          let i ← pointerToNhi c pos
          let node ← i.assign nhi
          some (node, m, (1 : ℤ))
        else do
          let (node, m) ← extendRule m c pos level nhi
          some (node, m, (0 : ℤ))) = some (c₁, m₁, ret) ∧
      (if testBitmap n.internal pos then do
          let node ← (TreeBitmap.pointerToNhi n pos).assign nhi
          some (node, m', (1 : ℤ))
        else do
          let (node, m) ← TreeBitmap.extendRule m' n pos level nhi
          some (node, m, (0 : ℤ))) = some (n₁, m₁', ret) ∧
      Compresses c₁ n₁ ∧ m₁.op = m.op ∧ m₁'.op = m'.op := by
  rw [InsertFits] at hfit
  by_cases hset : pos ∈ members n.internal
  · have hset' : pos ∈ members c.internal := h.internal ▸ hset
    have htest := testBitmap_iff.mpr hset'
    rw [if_pos htest] at hfit
    obtain ⟨p, rules, hp, hassign, hpacked⟩ := assign_spec h.packed hset' hfit
    refine ⟨{ c with rules := rules }, m, n.putRule pos nhi, m', 1, ?_, ?_, ?_, rfl, rfl⟩
    · simp only [if_pos htest, hp, hassign, Option.bind_eq_bind, Option.bind_some]
    · rw [if_pos (h.internal ▸ htest), assign_pointerToNhi h.layout hset]
      rfl
    · have hedit : Edited c { c with rules := rules } _ m m := ⟨rfl, rfl, hpacked, rfl⟩
      refine h.edit (layout_putRule h.layout pos nhi) h.internal rfl rfl hedit fun i _ => ?_
      rw [rule_putRule h.layout hset, Function.update_apply]
  · have hset' : pos ∉ members c.internal := h.internal ▸ hset
    have htest : ¬ testBitmap c.internal pos := fun ht => hset' (testBitmap_iff.mp ht)
    rw [if_neg htest] at hfit
    obtain ⟨c₁, m₁, hc, hint, hedit⟩ :=
      extendRule_spec hok hlevel h.children_length h.packed hpos hset' hfit
    obtain ⟨ptr, m₁', hn, hop', hptr, -⟩ :=
      TreeBitmap.extendRule_spec hok' hlevel h.layout (by omega) hset nhi
    refine ⟨c₁, m₁, n.withRule ptr pos nhi, m₁', 0, ?_, ?_, ?_, hedit.op, hop'⟩
    · simp only [if_neg htest, hc, Option.bind_eq_bind, Option.bind_some]
    · rw [if_neg (h.internal ▸ htest), hn]
      rfl
    · refine h.edit (layout_withRule h.layout (by omega) hset hptr nhi) ?_ rfl rfl hedit
        fun i _ => ?_
      · rw [hint, h.internal]
        rfl
      · rw [rule_withRule h.layout (by omega) hset, Function.update_apply]

/-- The step to a child, in both builds. -/
theorem enterChild_compresses (hok : m.Succeeds) (hok' : m'.Succeeds) (hlevel : level < MAX_LEVEL)
    (h : Compresses c n) (hn : n.Wf w) {t : List Bool} (ht : t.length = 6) :
    ∃ c₁ m₁ n₁ m₁' d e,
      (if testBitmap c.external (value t) then some (c, nextChild c (value t), m)
        else extendChild m c level (value t)) = some (c₁, nextChild c₁ (value t), m₁) ∧
      (if testBitmap n.external (value t) then some (n, nextChild n (value t), m')
        else TreeBitmap.extendChild m' n level (value t)) =
          some (n₁, nextChild n₁ (value t), m₁') ∧
      Compresses c₁ n₁ ∧ c₁.kid (value t) = some d ∧ n₁.kid (value t) = some e ∧
      e.Wf (w - 6) ∧ (c.kid (value t) = some d ∨ d = .zero) ∧ m₁.op = m.op ∧ m₁'.op = m'.op := by
  by_cases hmem : value t ∈ members n.external
  · have htest := testBitmap_iff.mpr hmem
    obtain ⟨e, he⟩ := TreeBitmap.exists_kid h.layout hmem
    obtain ⟨d, hd, -⟩ := h.exists_kid he
    refine ⟨c, m, n, m', d, e, ?_, if_pos htest, h, hd, he, hn.kids he, .inl hd, rfl, rfl⟩
    exact if_pos (h.external ▸ htest)
  · have htest : ¬ testBitmap n.external (value t) := fun ht => hmem (testBitmap_iff.mp ht)
    have hlt : value t < 64 := by
      have := value_lt t
      rwa [ht] at this
    obtain ⟨c₁, m₁, ptr, m₁', hc, hn₁, hcomp, hd, hop, hop'⟩ :=
      extendChild_compresses hok hok' hlevel h hlt hmem
    refine ⟨c₁, m₁, n.withChild ptr (value t), m₁', .zero, .zero, ?_, ?_, hcomp, hd, ?_,
      wf_zero _, .inr rfl, hop, hop'⟩
    · rw [if_neg (h.external ▸ htest), hc]
    · rw [if_neg htest, hn₁]
    · rw [kid_withChild h.layout hlt hmem, if_pos rfl]

/-- `insert_prefix` at the node of the prefix. -/
theorem insertPrefix_of_lt {ip : α} {s : List Bool} (hip : Spells ip s) (hs : s.length < 6) :
    insertPrefix m c ip s.length level nhi =
      (if testBitmap c.internal (inlPos s) then do
          let i ← pointerToNhi c (inlPos s)
          let node ← i.assign nhi
          some (node, m, 1)
        else do
          let (node, m) ← extendRule m c (inlPos s) level nhi
          some (node, m, 0)) := by
  rw [insertPrefix, if_pos (by exact hs), hip.leafPos_eq hs]

/-- `insert_prefix` at a node before. -/
theorem insertPrefix_append {ip : α} {t s : List Bool} {c₁ d d₁ : MbNode} {m₁ m₂ : Mm} {ret : ℤ}
    (ht : t.length = 6) (hip : Spells ip (t ++ s)) (hlevel : level < MAX_LEVEL)
    (henter : (if testBitmap c.external (value t) then some (c, nextChild c (value t), m)
      else extendChild m c level (value t)) = some (c₁, nextChild c₁ (value t), m₁))
    (hl : c₁.children.length = (members c₁.external).card) (hd : c₁.kid (value t) = some d)
    (hrec : insertPrefix m₁ d (lshift ip 6) s.length (level + 1) nhi = some (d₁, m₂, ret)) :
    insertPrefix m c ip (t ++ s).length level nhi =
      some (c₁.putChild (value t) d₁, m₂, ret) := by
  have hlen : (t ++ s).length = s.length + 6 := by rw [List.length_append, ht, Nat.add_comm]
  have hstride : u8 (level + 1) = level + 1 := Nat.mod_eq_of_lt (by rw [MAX_LEVEL] at *; omega)
  rw [insertPrefix, if_neg (by rw [STRIDE_eq]; omega), hip.strideOf_append ht, hlen]
  simp only [countEnlBitmap, STRIDE_eq, hstride, henter, load_nextChild hd, hrec,
    store_nextChild hl (mem_of_kid hd), Nat.add_sub_cancel, Option.bind_eq_bind, Option.bind_some]
  rfl

/-- **`insert_prefix` in both builds.** -/
theorem insertPrefix_spec (hok : m.Succeeds) (hok' : m'.Succeeds) (h : Compresses c n)
    (hn : n.Wf w) {ip : α} {s : List Bool} (hip : Spells ip s) (hs : s.length ≤ w)
    (hlevel : level + w / 6 < MAX_LEVEL)
    (hfit : ∀ d, c.nodeAt (nodeBits s) = some d → InsertFits d (leafIdx s) nhi) :
    ∃ c₁ m₁ n₁ m₁' ret, insertPrefix m c ip s.length level nhi = some (c₁, m₁, ret) ∧
      TreeBitmap.insertPrefix m' n ip s.length level nhi = some (n₁, m₁', ret) ∧
      Compresses c₁ n₁ ∧ m₁.op = m.op ∧ m₁'.op = m'.op := by
  induction s using stride_induction generalizing m m' c n w ip level with
  | leaf s hlt =>
      rw [nodeBits_of_lt hlt, leafIdx_of_lt hlt] at hfit
      rw [insertPrefix_of_lt hip hlt, TreeBitmap.insertPrefix_of_lt hip hlt]
      exact insertLeaf_compresses hok hok' (by omega) h (inlPos_lt_bits hlt)
        (hfit c (nodeAt_nil c))
  | inner t s ht ih =>
      have hlevel₀ : level < MAX_LEVEL := by omega
      rw [List.length_append, ht] at hs
      have hlevel₁ : level + 1 + (w - 6) / 6 < MAX_LEVEL := by omega
      obtain ⟨c₁, m₁, n₁, m₁', d, e, hc, hn₁, hcomp, hd, he, hwf, hdc, hop, hop'⟩ :=
        enterChild_compresses hok hok' hlevel₀ h hn ht
      have hfit' : ∀ d', d.nodeAt (nodeBits s) = some d' → InsertFits d' (leafIdx s) nhi := by
        intro d' hd'
        rcases hdc with hdc | rfl
        · rw [← leafIdx_append ht]
          apply hfit
          rw [nodeBits_append ht, nodeAt_append ht, hdc]
          exact hd'
        · exact insertFits_nodeAt_zero hd' _
      obtain ⟨d₁, m₂, e₁, m₂', ret, hd₁, he₁, hcomp₁, hop₁, hop₁'⟩ :=
        ih (hok.of_op_eq hop) (hok'.of_op_eq hop') (hcomp.kids hd he) hwf (hip.lshift_append ht)
          (by omega) hlevel₁ hfit'
      refine ⟨c₁.putChild (value t) d₁, m₂, n₁.putChild (value t) e₁, m₂', ret, ?_, ?_,
        hcomp.putChild (mem_of_kid he) hcomp₁, hop₁.trans hop, hop₁'.trans hop'⟩
      · exact insertPrefix_append ht hip hlevel₀ hc hcomp.children_length hd hd₁
      · exact TreeBitmap.insertPrefix_append ht hip hlevel₀ hn₁ hcomp.layout.children_length he he₁

/-! ## Delete -/

/-- Corresponding entries of `trace_node` above the last one. -/
abbrev Frames : List (MbNode × ℕ) → List (MbNode × ℕ) → Prop :=
  List.Forall₂ fun x y => x.2 = y.2 ∧ Compresses x.1 y.1 ∧ y.2 ∈ members y.1.external

/-- `update_nodes` above the last node, in both builds. -/
theorem updateParents_compresses (hok : m.Succeeds) (hok' : m'.Succeeds) (h : Compresses c n)
    (del : Bool) {trace trace' : List (MbNode × ℕ)} (hframes : Frames trace trace')
    (hlevel : trace.length ≤ MAX_LEVEL) :
    ∃ c₁ m₁ n₁ m₁' ret, updateParents m c del trace = some (c₁, m₁, ret) ∧
      TreeBitmap.updateParents m' n del trace' = some (n₁, m₁', ret) ∧
      Compresses c₁ n₁ ∧ m₁.op = m.op ∧ m₁'.op = m'.op := by
  induction hframes generalizing m m' c n del with
  | nil => exact ⟨c, m, n, m', del, rfl, rfl, h, rfl, rfl⟩
  | @cons x y trace trace' hxy hframes ih =>
      obtain ⟨p, pos⟩ := x
      obtain ⟨q, pos'⟩ := y
      obtain ⟨rfl, hpq, hmem⟩ := hxy
      simp only at hpq hmem
      rw [List.length_cons] at hlevel
      have hput := hpq.putChild hmem h
      have hset := setChild_eq_putChild hpq.children_length (hpq.external ▸ hmem) c
      have hset' := setChild_eq_putChild hpq.layout.children_length hmem n
      cases del with
      | false =>
          obtain ⟨c₁, m₁, n₁, m₁', ret, hc, hn, hcomp, hop, hop'⟩ :=
            ih hok hok' hput (p.putChild pos c).isEmpty (by omega)
          refine ⟨c₁, m₁, n₁, m₁', ret, ?_, ?_, hcomp, hop, hop'⟩
          · simp only [updateParents, hset, hc, Bool.false_eq_true, if_false, Option.bind_eq_bind,
              Option.bind_some]
          · rw [hput.isEmpty_eq] at hn
            simp only [TreeBitmap.updateParents, hset', hn, Bool.false_eq_true, if_false,
              Option.bind_eq_bind, Option.bind_some]
      | true =>
          have hlt : trace.length < MAX_LEVEL := by omega
          have hmem₁ : pos ∈ members (q.putChild pos n).external := hmem
          obtain ⟨p₁, m₁, q₁, m₁', hp, hq, hred, hop, hop'⟩ :=
            reduceChild_compresses hok hok' hlt hput hmem₁
          obtain ⟨c₂, m₂, n₂, m₂', ret, hc, hn, hcomp, hop₁, hop₁'⟩ :=
            ih (hok.of_op_eq hop) (hok'.of_op_eq hop') hred p₁.isEmpty (by omega)
          refine ⟨c₂, m₂, n₂, m₂', ret, ?_, ?_, hcomp, hop₁.trans hop, hop₁'.trans hop'⟩
          · simp only [updateParents, hset, hp, hc, if_true, Option.bind_eq_bind, Option.bind_some]
          · rw [hframes.length_eq] at hq
            rw [hred.isEmpty_eq] at hn
            simp only [TreeBitmap.updateParents, hset', hq, hn, if_true, Option.bind_eq_bind,
              Option.bind_some]

/-- The way down of a delete, in both builds. -/
theorem deleteTrace_compresses (h : Compresses c n) (hn : n.Wf w) {ip : α} {s : List Bool}
    (hip : Spells ip s) {v : Nhi} (hv : n.get s = some v) {trace trace' : List (MbNode × ℕ)}
    (hframes : Frames trace trace') (hlevel : trace.length + w / 6 < LEVEL α) :
    ∃ d e fr fr', deleteTrace c ip s.length trace = some ((d, leafIdx s) :: fr) ∧
      deleteTrace n ip s.length trace' = some ((e, leafIdx s) :: fr') ∧
      c.nodeAt (nodeBits s) = some d ∧ Compresses d e ∧ e.rule (leafIdx s) = some v ∧
      Frames fr fr' ∧ fr.length < LEVEL α := by
  have hlen := hframes.length_eq
  induction s using stride_induction generalizing c n w ip trace trace' with
  | leaf s hlt =>
      rw [nodeBits_of_lt hlt, leafIdx_of_lt hlt]
      refine ⟨c, n, trace, trace', deleteTrace_of_lt hip hlt (by omega),
        deleteTrace_of_lt hip hlt (by omega), nodeAt_nil c, h, ?_, hframes, by omega⟩
      rw [← MbNode.get_of_lt hlt, hv]
  | inner t s ht ih =>
      rw [MbNode.get_append ht] at hv
      obtain ⟨e, he, hve⟩ := Option.bind_eq_some_iff.mp hv
      have hw := hn.le_of_kid he
      obtain ⟨d, hd, hde⟩ := h.exists_kid he
      have hframes' : Frames ((c, value t) :: trace) ((n, value t) :: trace') :=
        .cons ⟨rfl, h, mem_of_kid he⟩ hframes
      obtain ⟨d', e', fr, fr', htrace, htrace', hnode, hcomp, hrule, hfr, hlen'⟩ :=
        ih hde (hn.kids he) (hip.lshift_append ht) hve hframes'
          (by rw [List.length_cons]; omega) hframes'.length_eq
      have hchild : c.child (value t) = some d := load_nextChild hd
      have hchild' : n.child (value t) = some e := load_nextChild he
      rw [leafIdx_append ht, nodeBits_append ht, nodeAt_append ht, hd]
      refine ⟨d', e', fr, fr', ?_, ?_, hnode, hcomp, hrule, hfr, hlen'⟩
      · rw [deleteTrace_append ht hip (by omega), hchild, Option.bind_some, htrace]
      · rw [deleteTrace_append ht hip (by omega), hchild', Option.bind_some, htrace']

/-- **`delete_prefix` in both builds.** -/
theorem deletePrefix_spec (hok : m.Succeeds) (hok' : m'.Succeeds) (h : Compresses c n)
    (hn : n.Wf w) {ip : α} {s : List Bool} (hip : Spells ip s) (hw : w ≤ IpAddr.LENGTH α) {v : Nhi}
    (hv : n.get s = some v) (destroyNhi : Bool)
    (hfit : ∀ d, c.nodeAt (nodeBits s) = some d → DeleteFits d (leafIdx s)) :
    ∃ c₁ m₁ n₁ m₁' ret calls,
      deletePrefix m c ip s.length destroyNhi = some (c₁, m₁, ret, calls) ∧
      TreeBitmap.deletePrefix m' n ip s.length destroyNhi = some (n₁, m₁', ret, calls) ∧
      Compresses c₁ n₁ ∧ m₁.op = m.op ∧ m₁'.op = m'.op := by
  obtain ⟨d, e, fr, fr', htrace, htrace', hnode, hde, hrule, hframes, hfr⟩ :=
    deleteTrace_compresses h hn hip hv .nil (level_nil hw)
  have hmem := mem_of_rule hrule
  have hmem' : leafIdx s ∈ members d.internal := hde.internal ▸ hmem
  have hmax := LEVEL_le_MAX_LEVEL α
  have hlt : fr.length < MAX_LEVEL := by omega
  have hlt' : fr'.length < MAX_LEVEL := hframes.length_eq ▸ hlt
  obtain ⟨d₁, m₁, hd₁, hint, hedit⟩ :=
    reduceRule_spec hok hlt hde.children_length hde.packed hmem' (hfit d hnode)
  obtain ⟨ptr, m₁', he₁, hop', hl, -⟩ := TreeBitmap.reduceRule_spec hok' hlt' hde.layout hmem
  have hcomp : Compresses d₁ (e.withoutRule ptr (leafIdx s)) := by
    refine hde.edit hl ?_ rfl rfl hedit fun i hi => ?_
    · rw [hint, hde.internal]
      rfl
    · rw [hint, members_clearBitmap] at hi
      rw [rule_withoutRule hmem, if_neg (Finset.mem_erase.mp hi).1]
  obtain ⟨c₂, m₂, n₂, m₂', ret, hup, hup', hcomp₂, hop₂, hop₂'⟩ :=
    updateParents_compresses (hok.of_op_eq hedit.op) (hok'.of_op_eq hop') hcomp d₁.isEmpty hframes
      (by omega)
  rw [hcomp.isEmpty_eq] at hup'
  obtain ⟨p, hp, hderef⟩ := hde.packed.deref hmem'
  refine ⟨c₂, m₂, n₂, m₂', ret, if destroyNhi then [v] else [], ?_, ?_, hcomp₂,
    hop₂.trans hedit.op, hop₂'.trans hop'⟩
  · have hnodes : updateNodes m ((d, leafIdx s) :: fr) = some (c₂, m₂, ret) := by
      rw [updateNodes, hd₁]
      exact hup
    rw [hrule] at hderef
    cases destroyNhi <;>
      simp only [deletePrefix, htrace, List.head?_cons, hp, hderef, hnodes, Bool.false_eq_true,
        if_false, if_true, Option.bind_eq_bind, Option.bind_some]
  · have hnodes : TreeBitmap.updateNodes m' ((e, leafIdx s) :: fr') = some (n₂, m₂', ret) := by
      rw [TreeBitmap.updateNodes, he₁]
      exact hup'
    have hderef' := (deref_pointerToNhi hmem).trans hrule
    cases destroyNhi <;>
      simp only [TreeBitmap.deletePrefix, htrace', List.head?_cons, hderef', hnodes,
        Bool.false_eq_true, if_false, if_true, Option.bind_eq_bind, Option.bind_some]

/-! ## Search -/

/-- The search from corresponding nodes on, with matches that hold the same next hop. -/
theorem doSearchLoop_eq (h : Compresses c n) (ip : α) (lg lg' : Option NhiPtr)
    (hlg : derefLongest lg = derefLongest lg') :
    doSearchLoop c ip lg = TreeBitmap.doSearchLoop n ip lg' := by
  induction h generalizing ip lg lg' with
  | @intro c n layout external internal length packed kids ih =>
      have h : Compresses c n := .intro layout external internal length packed kids
      obtain ⟨lg₁, hmatch, hlg₁⟩ : ∃ lg₁,
          (if treeFunction c.internal (strideOf ip) ≠ -1 then
              (pointerToNhi c (treeFunction c.internal (strideOf ip)).toNat).bind fun p =>
                some (some p)
            else some lg) = some lg₁ ∧
          derefLongest lg₁ = derefLongest (if treeFunction c.internal (strideOf ip) ≠ -1 then
              some (TreeBitmap.pointerToNhi n (treeFunction c.internal (strideOf ip)).toNat)
            else lg') := by
        split_ifs with hpos
        · have hmem := mem_of_treeFunction hpos
          obtain ⟨p, hp, hderef⟩ := packed.deref hmem
          refine ⟨some p, by rw [hp]; rfl, ?_⟩
          rw [derefLongest, derefLongest, hderef, deref_pointerToNhi (internal ▸ hmem)]
        · exact ⟨lg, rfl, hlg⟩
      rw [doSearchLoop]
      simp only [hmatch, Option.bind_eq_bind, Option.bind_some, countEnlBitmap]
      rw [internal] at hlg₁
      by_cases hmem : strideOf ip ∈ members n.external
      · obtain ⟨e, he⟩ := TreeBitmap.exists_kid layout hmem
        obtain ⟨d, hd, -⟩ := h.exists_kid he
        have hchild : c.child (strideOf ip) = some d := load_nextChild hd
        rw [if_pos (testBitmap_iff.mpr (mem_of_kid hd)),
          TreeBitmap.doSearchLoop_of_child (testBitmap_iff.mpr hmem) (load_nextChild he)]
        split
        · rename_i d' hd'
          obtain rfl : d = d' := Option.some.inj (hchild.symm.trans hd')
          exact ih _ _ _ hd he _ _ _ hlg₁
        · rename_i hnone
          rw [hchild] at hnone
          cases hnone
      · have htest : ¬ testBitmap n.external (strideOf ip) := fun ht => hmem (testBitmap_iff.mp ht)
        rw [if_neg (external ▸ htest), TreeBitmap.doSearchLoop_of_not htest]
        exact hlg₁

/-! ## Runs -/

/-- One update by the functions of this build. -/
def bitmapStep : MbNode × Mm → Op IpV4 → Option (MbNode × Mm)
  | (root, m), .insert p nhi => do
      let (root, m, _) ← bitmapInsertPrefix root m p.ip p.cidr nhi
      some (root, m)
  | (root, m), .delete p destroyNhi => do
      let (root, m, _, _) ← bitmapDeletePrefix root m p.ip p.cidr destroyNhi
      some (root, m)

/-- Both builds hold one map. -/
structure Agree (st st' : MbNode × Mm) (T : Stored IpV4) : Prop where
  compresses : Compresses st.1 st'.1
  succeeds : st.2.Succeeds
  mirrors : Mirrors st' T

/-- **A harmless update** keeps the builds in step. -/
theorem Agree.step {st st' : MbNode × Mm} {T : Stored IpV4} (h : Agree st st' T) {op : Op IpV4}
    (hlegal : (storedMachine IpV4).legal T op) (hfit : Harmless st.1 op) :
    ∃ st₁ st₁', bitmapStep st op = some st₁ ∧ TreeBitmap.bitmapStep st' op = some st₁' ∧
      Agree st₁ st₁' ((storedMachine IpV4).step T op) := by
  obtain ⟨c, m⟩ := st
  obtain ⟨n, m'⟩ := st'
  obtain ⟨hcomp, hok, hmir⟩ := h
  obtain ⟨st₁', -, hstep', hmir', -⟩ := trieStep_spec hmir op hlegal
  rw [← bitmapStep_eq] at hstep'
  cases op with
  | insert p nhi =>
      have hlen : p.bits.length ≤ IpAddr.LENGTH IpV4 := p.length_bits ▸ p.cidr_le
      obtain ⟨c₁, m₁, n₁, m₁', ret, hc, hn, hcomp₁, hop, hop'⟩ :=
        insertPrefix_spec hok hmir.succeeds hcomp hmir.wf p.spells hlen (level_zero IpV4) hfit
      rw [p.length_bits] at hc hn
      have hst : st₁' = (n₁, m₁') := by
        simp only [TreeBitmap.bitmapStep, TreeBitmap.bitmapInsertPrefix, hn, Option.bind_eq_bind,
          Option.bind_some] at hstep'
        exact (Option.some.inj hstep').symm
      refine ⟨(c₁, m₁), st₁', ?_, hstep', ⟨hst ▸ hcomp₁, hok.of_op_eq hop, hmir'⟩⟩
      simp only [bitmapStep, bitmapInsertPrefix, hc, Option.bind_eq_bind, Option.bind_some]
  | delete p destroyNhi =>
      obtain ⟨v, hv⟩ := Finmap.mem_iff.mp (show p ∈ T from hlegal)
      have hget : n.get p.bits = some v := by rw [hmir.get, table_bits, hv]
      obtain ⟨c₁, m₁, n₁, m₁', ret, calls, hc, hn, hcomp₁, hop, hop'⟩ :=
        deletePrefix_spec hok hmir.succeeds hcomp hmir.wf p.spells (le_refl _) hget destroyNhi hfit
      rw [p.length_bits] at hc hn
      have hst : st₁' = (n₁, m₁') := by
        simp only [TreeBitmap.bitmapStep, TreeBitmap.bitmapDeletePrefix, hn, Option.bind_eq_bind,
          Option.bind_some] at hstep'
        exact (Option.some.inj hstep').symm
      refine ⟨(c₁, m₁), st₁', ?_, hstep', ⟨hst ▸ hcomp₁, hok.of_op_eq hop, hmir'⟩⟩
      simp only [bitmapStep, bitmapDeletePrefix, hc, Option.bind_eq_bind, Option.bind_some]

theorem agree_zero {m m' : Mm} (hm : m.Succeeds) (hm' : m'.Succeeds) :
    Agree (.zero, m) (.zero, m') ∅ :=
  ⟨compresses_zero, hm, mirrors_zero hm'⟩

/-- **The builds agree** after every run of harmless updates. -/
theorem bitmap_run_agrees {m m' : Mm} (hm : m.Succeeds) (hm' : m'.Succeeds)
    {ops : List (Op IpV4)} (hops : (storedMachine IpV4).Legal ∅ ops)
    (hfit : Run.Guarded bitmapStep (fun st op => Harmless st.1 op) (.zero, m) ops) :
    ∃ st st', ops.foldlM bitmapStep (.zero, m) = some st ∧
      ops.foldlM TreeBitmap.bitmapStep (.zero, m') = some st' ∧
      ∀ a, ∃ r, bitmapDoSearch st.1 a = some r ∧ TreeBitmap.bitmapDoSearch st'.1 a = some r := by
  obtain ⟨st, st', hrun, hrun', hagree⟩ :=
    Run.Machine.lockstep (R := Agree) (fun st op => Harmless st.1 op)
      (fun _ _ _ _ h hlegal hfit => Agree.step h hlegal hfit) (agree_zero hm hm') hops hfit
  refine ⟨st, st', hrun, hrun', fun a => ?_⟩
  obtain ⟨r, hr, -⟩ := hagree.mirrors.answers a
  exact ⟨r, (doSearchLoop_eq hagree.compresses a none none rfl).trans hr, hr⟩

/-! ### Two prefixes that share a slot -/

/-- `128.0.0.0/1`. -/
def upperHalf : Prefix IpV4 := ⟨0x80000000#32, 1, by decide, by decide⟩

/-- `0.0.0.0/1`. -/
def lowerHalf : Prefix IpV4 := ⟨0#32, 1, by decide, by decide⟩

/-- The root that holds the prefixes at `internal`, all of which use the slot of
`upperHalf`. -/
def halves (internal : Bitmap) (ptr : Option Ptr) (nhi : Nhi) : MbNode :=
  ⟨0, internal, ptr, [0x4#64, nhi, 0], []⟩

theorem halves_upper {op : MemOp} (hop : (mmInit op).Succeeds) :
    ∃ ptr m, bitmapStep (.zero, mmInit op) (.insert upperHalf 1) =
      some (halves 0x4#64 ptr 1, m) := by
  obtain ⟨m, hnew⟩ : ∃ m, newNode (mmInit op) 0 1 0 = some (⟨some ⟨0, 1⟩, [0, 0, 0], []⟩, m) := by
    have hans : (mmInit op).op (mmInit op).calls (upChild 0 + upRule 1) 0 = true :=
      hop [] 1 0 Nat.one_pos
    refine ⟨⟨MemStat.zero.charge 1 ⟨0, by decide⟩, op, [.alloc 1 0 (some ⟨0, 0⟩)]⟩, ?_⟩
    rw [newNode, allocNode, dif_pos (by decide)]
    simp only [if_pos hans]
    rfl
  have hext : extendRule (mmInit op) .zero 2 0 1 = some (halves 0x4#64 (some ⟨0, 1⟩) 1, m) := by
    change (newNode (mmInit op) 0 1 0).bind _ = _
    rw [hnew]
    rfl
  have hpos : leafPos upperHalf.ip upperHalf.cidr = 2 := by decide
  have htest : ¬ testBitmap MbNode.zero.internal 2 := by decide
  rw [bitmapStep, bitmapInsertPrefix, insertPrefix, if_pos (by decide), hpos]
  simp only [if_neg htest, hext]
  exact ⟨_, _, rfl⟩

/-- Both positions use the one slot. -/
theorem pointerToNhi_halves {internal : Bitmap} (ptr : Option Ptr) (nhi : Nhi)
    (hpos : countOnes 0x4#64 pos = 0) :
    pointerToNhi (halves internal ptr nhi) pos = some ⟨halves internal ptr nhi, 1⟩ := by
  have hslot : countOnes 0x4#64 pos + 1 = 1 := by omega
  simp only [halves, pointerToNhi, getInlMask, load]
  simp [hslot]

theorem isRedund_halves (ptr : Option Ptr) (nhi : Nhi) :
    isRedund (halves 0x4#64 ptr nhi) 1 nhi = some true := by
  have hidx : ctz ((0x4#64 >>> 2) <<< 2) = 2 := by decide +kernel
  have hne : ¬ (0x4#64 >>> 2) <<< 2 = 0#64 := by decide
  have hp : pointerToNhi (halves 0x4#64 ptr nhi) 2 = some ⟨halves 0x4#64 ptr nhi, 1⟩ :=
    pointerToNhi_halves ptr nhi (by decide)
  have hint : (halves 0x4#64 ptr nhi).internal = 0x4#64 := rfl
  have hderef : NhiPtr.deref ⟨halves 0x4#64 ptr nhi, 1⟩ = some nhi := rfl
  simp only [isRedund, hint, Nat.reduceAdd, if_neg hne, hidx, hp, hderef, Option.bind_eq_bind,
    Option.bind_some, beq_self_eq_true]

theorem not_testBitmap_halves (ptr : Option Ptr) (nhi : Nhi) :
    ¬ testBitmap (halves 0x4#64 ptr nhi).internal 1 := by
  change ¬ testBitmap 0x4#64 1
  decide

/-- The second prefix finds its next hop at the first one. -/
theorem halves_lower (ptr : Option Ptr) (m : Mm) :
    bitmapStep (halves 0x4#64 ptr 1, m) (.insert lowerHalf 1) =
      some (halves 0x6#64 ptr 1, m) := by
  have hpos : leafPos lowerHalf.ip lowerHalf.cidr = 1 := by decide
  have hset : setBitmap (halves 0x4#64 ptr 1).internal 1 = 0x6#64 := by
    change setBitmap 0x4#64 1 = 0x6#64
    decide
  have hnum : ruleNum (halves 0x4#64 ptr 1) = some 2 := rfl
  rw [bitmapStep, bitmapInsertPrefix, insertPrefix, if_pos (by decide), hpos]
  simp only [if_neg (not_testBitmap_halves ptr 1), extendRule, isRedund_halves, hnum, hset,
    Option.bind_eq_bind, Option.bind_some, if_true]
  rfl

/-- The slot of the first prefix is overwritten. -/
theorem halves_overwrite (ptr : Option Ptr) (m : Mm) :
    bitmapStep (halves 0x6#64 ptr 1, m) (.insert upperHalf 2) =
      some (halves 0x6#64 ptr 2, m) := by
  have hpos : leafPos upperHalf.ip upperHalf.cidr = 2 := by decide
  have htest : testBitmap (halves 0x6#64 ptr 1).internal 2 := by
    change testBitmap 0x6#64 2
    decide
  have hp : pointerToNhi (halves 0x6#64 ptr 1) 2 = some ⟨halves 0x6#64 ptr 1, 1⟩ :=
    pointerToNhi_halves ptr 1 (by decide)
  rw [bitmapStep, bitmapInsertPrefix, insertPrefix, if_pos (by decide), hpos]
  simp only [if_pos htest, hp]
  rfl

/-- What the second prefix answers is in the slot of the first. -/
theorem search_halves (ptr : Option Ptr) : bitmapDoSearch (halves 0x6#64 ptr 2) 0#32 = some 2 := by
  have hpos : treeFunction (halves 0x6#64 ptr 2).internal (strideOf 0#32) = 1 := by
    change treeFunction 0x6#64 (strideOf 0#32) = 1
    decide
  have htest : ¬ testBitmap (halves 0x6#64 ptr 2).external (countEnlBitmap (strideOf 0#32)) := by
    change ¬ testBitmap 0#64 _
    decide
  have hp : pointerToNhi (halves 0x6#64 ptr 2) 1 = some ⟨halves 0x6#64 ptr 2, 1⟩ :=
    pointerToNhi_halves ptr 2 (by decide)
  rw [bitmapDoSearch, doSearchLoop]
  simp only [hpos, if_neg htest, Int.toNat_one, hp]
  rfl

theorem nodeAt_lowerHalf {root d : MbNode} (hd : root.nodeAt (nodeBits lowerHalf.bits) = some d) :
    d = root := by
  rw [nodeBits_of_lt (by decide), nodeAt_nil] at hd
  exact (Option.some.inj hd).symm

theorem leafIdx_lowerHalf : leafIdx lowerHalf.bits = 1 := by decide

/-- The second prefix comes to share a slot. -/
theorem guarded_halves {op : MemOp} (hop : (mmInit op).Succeeds) :
    Run.Guarded bitmapStep (fun st op => Harmless st.1 op) (.zero, mmInit op)
      [Op.insert upperHalf 1, .insert lowerHalf 1] := by
  refine ⟨fun d hd => insertFits_nodeAt_zero hd _, fun st hst => ?_⟩
  obtain ⟨ptr, m, hupper⟩ := halves_upper hop
  obtain rfl := Option.some.inj (hupper.symm.trans hst)
  refine ⟨fun d hd => ?_, fun _ _ => trivial⟩
  obtain rfl := nodeAt_lowerHalf hd
  rw [leafIdx_lowerHalf, InsertFits, if_neg (not_testBitmap_halves ptr 1)]
  exact .inl (isRedund_halves ptr 1)

/-- A prefix comes to share a slot and goes again. -/
theorem bitmap_run_agrees_halves :
    ∃ st st', [Op.insert upperHalf 1, .insert lowerHalf 1, .delete lowerHalf true].foldlM bitmapStep
        (.zero, mmInit simple) = some st ∧
      [Op.insert upperHalf 1, .insert lowerHalf 1, .delete lowerHalf true].foldlM
        TreeBitmap.bitmapStep (.zero, mmInit simple) = some st' ∧
      ∀ a, ∃ r, bitmapDoSearch st.1 a = some r ∧ TreeBitmap.bitmapDoSearch st'.1 a = some r := by
  refine bitmap_run_agrees succeeds_mmInit_simple succeeds_mmInit_simple
    ⟨trivial, trivial, Finmap.mem_insert.mpr (.inl rfl), trivial⟩
    ⟨fun d hd => insertFits_nodeAt_zero hd _, fun st hst => ?_⟩
  obtain ⟨ptr, m, hupper⟩ := halves_upper succeeds_mmInit_simple
  obtain rfl := Option.some.inj (hupper.symm.trans hst)
  refine ⟨fun d hd => ?_, fun st hst => ?_⟩
  · obtain rfl := nodeAt_lowerHalf hd
    rw [leafIdx_lowerHalf, InsertFits, if_neg (not_testBitmap_halves ptr 1)]
    exact .inl (isRedund_halves ptr 1)
  · obtain rfl := Option.some.inj ((halves_lower ptr m).symm.trans hst)
    refine ⟨fun d hd => .inl ?_, fun _ _ => trivial⟩
    obtain rfl := nodeAt_lowerHalf hd
    rw [leafIdx_lowerHalf]
    intro hown
    obtain ⟨mask, hmask, htest⟩ := hown
    obtain rfl : 0x4#64 = mask := Option.some.inj hmask
    exact absurd htest (by decide)

/-- Another next hop for `128.0.0.0/1` becomes that of `0.0.0.0/1` as well. -/
theorem bitmap_run_disagrees :
    ¬ ∀ ops, (storedMachine IpV4).Legal ∅ ops → ∀ st st' a,
      ops.foldlM bitmapStep (.zero, mmInit simple) = some st →
      ops.foldlM TreeBitmap.bitmapStep (.zero, mmInit simple) = some st' →
      bitmapDoSearch st.1 a = TreeBitmap.bitmapDoSearch st'.1 a := by
  intro hall
  have hlegal : (storedMachine IpV4).Legal ∅
      [Op.insert upperHalf 1, .insert lowerHalf 1, .insert upperHalf 2] :=
    ⟨trivial, trivial, trivial, trivial⟩
  obtain ⟨ptr, m, hupper⟩ := halves_upper succeeds_mmInit_simple
  obtain ⟨st', hrun', hmir⟩ := exists_trieStep_run succeeds_mmInit_simple hlegal
  have hrun : [Op.insert upperHalf 1, .insert lowerHalf 1, .insert upperHalf 2].foldlM bitmapStep
      (.zero, mmInit simple) = some (halves 0x6#64 ptr 2, m) := by
    simp only [List.foldlM_cons, List.foldlM_nil, hupper, halves_lower, halves_overwrite,
      Option.bind_eq_bind, Option.bind_some]
    rfl
  obtain ⟨r, hr, hans⟩ := hmir.answers 0#32
  have hexec : (storedMachine IpV4).exec ∅
      [Op.insert upperHalf 1, .insert lowerHalf 1, .insert upperHalf 2] =
        (((∅ : Stored IpV4).insert upperHalf 1).insert lowerHalf 1).insert upperHalf 2 := rfl
  rw [hexec] at hans
  have hans' : Stored.Answers ((((∅ : Stored IpV4).insert upperHalf 1).insert lowerHalf 1).insert
      upperHalf 2) 0#32 1 := by
    refine .inl ⟨lowerHalf, ?_, rfl, fun q hq _ => ?_⟩
    · have hne : lowerHalf ≠ upperHalf := by decide
      rw [Finmap.lookup_insert_of_ne _ hne, Finmap.lookup_insert]
    · simp only [Finmap.mem_insert, Finmap.notMem_empty, or_false] at hq
      rcases hq with rfl | rfl | rfl <;> exact le_refl _
  have hone : r = 1 := (answers_iff.mp hans).trans (answers_iff.mp hans').symm
  have hplain : TreeBitmap.bitmapDoSearch st'.1 0#32 = some r := hr
  have hboth := hall _ hlegal _ st' 0#32 hrun (bitmapStep_eq ▸ hrun')
  rw [search_halves, hplain, hone] at hboth
  exact absurd hboth (by decide)

end CompressNhi

end TreeBitmap
