import TreeBitmap.Trie

/-!
# Insert

`insert_prefix` sets one entry of the table and leaves every other entry, keeps the
trie well formed, and exchanges the blocks of the trie for those of the new trie.

## Main definitions

* `Inserted` — what an insert leaves.
* `enterChild_spec` — one step down, into a child that may have to be made first.
* `insertPrefix_spec` — the whole descent.
-/

namespace TreeBitmap

open BitString LongestMatch Ranked Ledger

variable {α : Type} [IpAddr α] {m : Mm} {n : MbNode} {w level pos : ℕ}

/-! ## Edits keep a trie well formed -/

theorem isEmpty_of_mem_internal (h : pos ∈ members n.internal) : n.isEmpty = false := by
  by_contra hne
  rw [Bool.not_eq_false, isEmpty_iff] at hne
  rw [hne.1] at h
  simp at h

theorem isEmpty_of_mem_external (h : pos ∈ members n.external) : n.isEmpty = false := by
  by_contra hne
  rw [Bool.not_eq_false, isEmpty_iff] at hne
  rw [hne.2] at h
  simp at h

theorem wf_putRule (hn : n.Wf w) (pos : ℕ) (nhi : Nhi) : (n.putRule pos nhi).Wf w :=
  .intro (layout_putRule hn.layout pos nhi) (fun _ h => hn.internal h) hn.external
    (fun _ _ h => hn.kids h) (fun _ _ h => hn.full h)

theorem wf_withRule (hn : n.Wf w) (hclear : pos ∉ members n.internal)
    (hpos : pos + 1 < 2 ^ (min w 5 + 1)) {ptr : Option Ptr} (hptr : ptr ≠ none) (nhi : Nhi) :
    (n.withRule ptr pos nhi).Wf w := by
  have hpow : 2 ^ (min w 5 + 1) ≤ 2 ^ 6 := Nat.pow_le_pow_right (by decide) (by omega)
  refine .intro (layout_withRule hn.layout (by omega) hclear hptr nhi) ?_ hn.external
    (fun _ _ h => hn.kids h) (fun _ _ h => hn.full h)
  intro i hi
  rw [MbNode.withRule, members_setBitmap (by omega)] at hi
  rcases Finset.mem_insert.mp hi with rfl | hi
  · exact hpos
  · exact hn.internal hi

/-- A node whose child at `pos` is replaced, the other children being those of a
well-formed node. -/
theorem wf_of_kid {n' c : MbNode} (hn : n.Wf w) (hw : 6 ≤ w) (hl : n'.Layout)
    (hint : n'.internal = n.internal)
    (hkid : ∀ i, n'.kid i = if i = pos then some c else n.kid i) (hc : c.Wf (w - 6))
    (hfull : c.isEmpty = false) : n'.Wf w := by
  refine .intro hl (fun i hi => hn.internal (hint ▸ hi)) (by omega) ?_ ?_
  · intro i d hd
    rw [hkid] at hd
    split at hd
    · cases hd
      exact hc
    · exact hn.kids hd
  · intro i d hd
    rw [hkid] at hd
    split at hd
    · cases hd
      exact hfull
    · exact hn.full hd

/-! ## One step down -/

/-- What the step to a child at `pos` finds or makes: `n'` has a child `c` there,
whose table is the part of the table of `n` under `t`. -/
structure Entered (level : ℕ) (t : List Bool) (m m' : Mm) (n n' c : MbNode) : Prop where
  layout : n'.Layout
  internal : n'.internal = n.internal
  rule : ∀ i, n'.rule i = n.rule i
  kid : ∀ i, n'.kid i = if i = value t then some c else n.kid i
  get : c.get = below n.get t
  op : m'.op = m.op
  trades : mmBook.Trades m m' (n.blocks level) (n'.blocks level)
  nhis : n'.nhis level = n.nhis level

theorem enterChild_spec (hok : m.Succeeds) (hlevel : level < MAX_LEVEL) (hn : n.Wf w)
    {t : List Bool} (ht : t.length = 6) :
    ∃ n' m' c, (if testBitmap n.external (value t) then
        some (n, nextChild n (value t), m) else extendChild m n level (value t)) =
          some (n', nextChild n' (value t), m') ∧
      c.Wf (w - 6) ∧ Entered level t m m' n n' c := by
  by_cases hmem : value t ∈ members n.external
  · obtain ⟨c, hc⟩ := exists_kid hn.layout hmem
    refine ⟨n, m, c, if_pos (testBitmap_iff.mpr hmem), hn.kids hc, hn.layout, rfl, fun _ => rfl,
      fun i => ?_, (below_get ht hc).symm, rfl, Book.Trades.refl _ _, rfl⟩
    split_ifs with hi
    · rw [hi]
      exact hc
    · rfl
  · have hlt : value t < 64 := by
      have := value_lt t
      rwa [ht] at this
    obtain ⟨ptr, m', hext, hop, hptr, htrade⟩ := extendChild_spec hok hlevel hn.layout hlt hmem
    have hbelow : below n.get t = fun _ => none := below_get_of_none ht (lookup_of_notMem hmem)
    refine ⟨n.withChild ptr (value t), m', .zero, ?_, wf_zero _,
      layout_withChild hn.layout hlt hmem hptr, rfl, fun _ => rfl,
      kid_withChild hn.layout hlt hmem ptr, ?_, hop, ?_, ?_⟩
    · rw [if_neg (fun h => hmem (testBitmap_iff.mp h)), hext]
    · rw [hbelow]
      funext s
      exact get_zero s
    · have hblocks : MbNode.zero.collect MbNode.own (level + 1) = 0 := blocks_zero _
      rw [blocks_eq, blocks_eq, inner_withChild hn.layout, hblocks, zero_add]
      exact (htrade.frame (n.inner MbNode.own level)).congr (add_comm _ _) (add_comm _ _)
    · have hnhis : MbNode.zero.collect MbNode.ownNhis (level + 1) = 0 := nhis_zero _
      rw [nhis_eq, nhis_eq, inner_withChild hn.layout, hnhis, zero_add]
      rfl

/-- An update of the child is an update of the table below `t`. -/
theorem Entered.get_putChild {t s : List Bool} {m' : Mm} {n' c c' : MbNode} {x : Option Nhi}
    (h : Entered level t m m' n n' c) (ht : t.length = 6)
    (hget : c'.get = Function.update c.get s x) :
    (n'.putChild (value t) c').get = Function.update n.get (t ++ s) x := by
  have hmem : value t ∈ members n'.external := mem_of_kid (by rw [h.kid, if_pos rfl])
  have hkid := kid_putChild h.layout hmem c'
  refine get_eq_update ht (fun u hu => ?_) (fun u hu hne => ?_) ?_
  · rw [MbNode.get_of_lt hu, MbNode.get_of_lt hu]
    exact h.rule _
  · have hpos : value u ≠ value t := fun he => hne (value_injective (hu.trans ht.symm) he)
    funext v
    rw [below_apply, below_apply, MbNode.get_append hu, MbNode.get_append hu, hkid, if_neg hpos,
      h.kid, if_neg hpos]
  · rw [below_get ht (by rw [hkid, if_pos rfl]), hget, h.get]

/-! ## The descent -/

/-- What an insert of `nhi` at `s` leaves. -/
structure Inserted (level w : ℕ) (s : List Bool) (nhi : Nhi) (m m' : Mm) (n n' : MbNode) :
    Prop where
  wf : n'.Wf w
  get : n'.get = Function.update n.get s (some nhi)
  full : n'.isEmpty = false
  op : m'.op = m.op
  trades : mmBook.Trades m m' (n.blocks level) (n'.blocks level)
  nhis : n'.nhis level + (n.get s).toList = n.nhis level + {nhi}

/-- The return value of an insert. -/
def insertRet (n : MbNode) (s : List Bool) : ℤ := if (n.get s).isSome then 1 else 0

theorem insertLeaf_spec (hok : m.Succeeds) (hlevel : level < MAX_LEVEL) (hn : n.Wf w)
    {s : List Bool} (hlt : s.length < 6) (hs : s.length ≤ w) (nhi : Nhi) :
    ∃ n' m', (if testBitmap n.internal (inlPos s) then do
          let node ← (pointerToNhi n (inlPos s)).assign nhi
          some (node, m, (1 : ℤ))
        else do
          let (node, m) ← extendRule m n (inlPos s) level nhi
          some (node, m, (0 : ℤ))) = some (n', m', insertRet n s) ∧
      Inserted level w s nhi m m' n n' := by
  have hget : n.get s = n.rule (inlPos s) := MbNode.get_of_lt hlt
  by_cases hset : inlPos s ∈ members n.internal
  · obtain ⟨v, hv⟩ := exists_rule hn.layout hset
    have hv : n.rule (inlPos s) = some v := hv
    obtain ⟨rest, hold, hnew, -⟩ := exists_ownNhis_eq hn.layout hv level
    refine ⟨n.putRule (inlPos s) nhi, m, ?_, wf_putRule hn _ _, ?_, ?_, rfl, ?_, ?_⟩
    · rw [if_pos (testBitmap_iff.mpr hset), assign_pointerToNhi hn.layout hset, insertRet, hget, hv]
      rfl
    · exact get_eq_update_of_lt hlt (rule_putRule hn.layout hset nhi) fun _ => rfl
    · exact isEmpty_of_mem_internal (n := n.putRule (inlPos s) nhi) hset
    · rw [blocks_eq, blocks_eq, inner_putRule]
      exact Book.Trades.refl _ _
    · rw [nhis_eq, nhis_eq, inner_putRule, hold, hnew, hget, hv, Option.toList_some,
        Multiset.coe_singleton]
      abel
  · have hpos : inlPos s + 1 < 2 ^ (min w 5 + 1) := inlPos_add_one_lt (by omega)
    have hlt64 : inlPos s < 64 := by
      have := inlPos_lt_bits hlt
      omega
    obtain ⟨ptr, m', hext, hop, hptr, htrade⟩ :=
      extendRule_spec hok hlevel hn.layout hlt64 hset nhi
    have hnone : n.get s = none := hget.trans ((rule_eq_none_iff hn.layout).mpr hset)
    refine ⟨n.withRule ptr (inlPos s) nhi, m', ?_, wf_withRule hn hset hpos hptr nhi, ?_, ?_, hop,
      ?_, ?_⟩
    · rw [if_neg (fun h => hset (testBitmap_iff.mp h)), hext, insertRet, hnone]
      rfl
    · exact get_eq_update_of_lt hlt (rule_withRule hn.layout hlt64 hset ptr nhi) fun _ => rfl
    · have hmem : inlPos s ∈ members (n.withRule ptr (inlPos s) nhi).internal := by
        rw [MbNode.withRule, members_setBitmap hlt64]
        exact Finset.mem_insert_self _ _
      exact isEmpty_of_mem_internal hmem
    · rw [blocks_eq, blocks_eq, inner_withRule]
      exact (htrade.frame (n.inner MbNode.own level)).congr (add_comm _ _) (add_comm _ _)
    · rw [nhis_eq, nhis_eq, inner_withRule, ownNhis_withRule hn.layout, hnone, Option.toList_none,
        Multiset.coe_nil, add_zero]
      abel

/-- `insert_prefix` at the node of the prefix. -/
theorem insertPrefix_of_lt {ip : α} {s : List Bool} (hip : Spells ip s) (hs : s.length < 6)
    (nhi : Nhi) :
    insertPrefix m n ip s.length level nhi =
      (if testBitmap n.internal (inlPos s) then do
          let node ← (pointerToNhi n (inlPos s)).assign nhi
          some (node, m, 1)
        else do
          let (node, m) ← extendRule m n (inlPos s) level nhi
          some (node, m, 0)) := by
  rw [insertPrefix, if_pos (by exact hs), hip.leafPos_eq hs]

/-- `insert_prefix` at a node before. -/
theorem insertPrefix_append {ip : α} {t s : List Bool} {n₁ c c' : MbNode} {m₁ m' : Mm} {ret : ℤ}
    {nhi : Nhi} (ht : t.length = 6) (hip : Spells ip (t ++ s)) (hlevel : level < MAX_LEVEL)
    (henter : (if testBitmap n.external (value t) then some (n, nextChild n (value t), m)
      else extendChild m n level (value t)) = some (n₁, nextChild n₁ (value t), m₁))
    (hl : n₁.children.length = (members n₁.external).card) (hc : n₁.kid (value t) = some c)
    (hrec : insertPrefix m₁ c (IpAddr.lshift ip 6) s.length (level + 1) nhi =
      some (c', m', ret)) :
    insertPrefix m n ip (t ++ s).length level nhi =
      some (n₁.putChild (value t) c', m', ret) := by
  have hlen : (t ++ s).length = s.length + 6 := by rw [List.length_append, ht, Nat.add_comm]
  have hstride : u8 (level + 1) = level + 1 := Nat.mod_eq_of_lt (by rw [MAX_LEVEL] at *; omega)
  rw [insertPrefix, if_neg (by rw [STRIDE_eq]; omega), hip.strideOf_append ht, hlen]
  simp only [countEnlBitmap, STRIDE_eq, hstride, henter, load_nextChild hc, hrec,
    store_nextChild hl (mem_of_kid hc), Nat.add_sub_cancel, Option.bind_eq_bind, Option.bind_some]
  rfl

/-- **`insert_prefix` sets one entry of the table**, in any trie and at any level. -/
theorem insertPrefix_spec (hok : m.Succeeds) (hn : n.Wf w) {ip : α} {s : List Bool}
    (hip : Spells ip s) (hs : s.length ≤ w) (hlevel : level + w / 6 < MAX_LEVEL) (nhi : Nhi) :
    ∃ n' m', insertPrefix m n ip s.length level nhi = some (n', m', insertRet n s) ∧
      Inserted level w s nhi m m' n n' := by
  induction s using stride_induction generalizing m n w ip level with
  | leaf s hlt =>
      rw [insertPrefix_of_lt hip hlt]
      exact insertLeaf_spec hok (by omega) hn hlt hs nhi
  | inner t s ht ih =>
      have hlevel₀ : level < MAX_LEVEL := by omega
      rw [List.length_append, ht] at hs
      have hlevel₁ : level + 1 + (w - 6) / 6 < MAX_LEVEL := by omega
      obtain ⟨n₁, m₁, c, henter, hcwf, hin⟩ := enterChild_spec hok hlevel₀ hn ht
      obtain ⟨c', m', hrec, hins⟩ :=
        ih (hok.of_op_eq hin.op) hcwf (hip.lshift_append ht) (by omega) hlevel₁
      have hc : n₁.kid (value t) = some c := by rw [hin.kid, if_pos rfl]
      have hmem := mem_of_kid hc
      have hold : n.get (t ++ s) = c.get s := by rw [hin.get, below_apply]
      have hret : insertRet c s = insertRet n (t ++ s) := by rw [insertRet, insertRet, hold]
      refine ⟨n₁.putChild (value t) c', m', ?_, ?_⟩
      · rw [← hret]
        exact insertPrefix_append ht hip hlevel₀ henter hin.layout.children_length hc hrec
      · have hkid : ∀ i, (n₁.putChild (value t) c').kid i =
            if i = value t then some c' else n.kid i := by
          intro i
          rw [kid_putChild hin.layout hmem, hin.kid]
          split_ifs <;> rfl
        refine ⟨wf_of_kid hn (by omega) (layout_putChild hin.layout _ _) hin.internal hkid hins.wf
          hins.full, hin.get_putChild ht hins.get,
          isEmpty_of_mem_external (n := n₁.putChild _ c') hmem,
          hins.op.trans hin.op, hin.trades.trans ?_, ?_⟩
        · exact (trades_putChild hin.layout hc
            (hins.trades.congr rfl (add_zero _))).congr rfl (add_zero _).symm
        · rw [hold, ← hin.nhis]
          exact nhis_putChild hin.layout hc hins.nhis

end TreeBitmap
