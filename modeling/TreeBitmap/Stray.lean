import TreeBitmap.Delete

/-!
# Deletes that go astray

`bitmap_delete_prefix` does not test the bits that it follows.  At a clear position of
`external`, `next_child` is the child of the next set position above, or a slot outside
the array.  In the last node `reduce_rule` tests only whether there is any next hop, and
takes one out, be its position set or clear.

A delete therefore leaves a trie alone just if its walk ends at a node without next
hops.  A callback that is given a next hop on such a walk is given one that is stored.

## Main definitions

* `EndsBare n s` — the walk ends at a node without next hops.
* `deletePrefix_of_endsBare`, `endsBare_of_deletePrefix` — **when a delete leaves a trie
  alone**.
* `exists_get_of_deletePrefix` — what the callback is given.
* `prefixExist_eq` — `bitmap_prefix_exist` knows what is stored.
-/

namespace TreeBitmap

open BitString LongestMatch Ranked

variable {α : Type} [IpAddr α] {m m' : Mm} {n n' c : MbNode} {w pos level : ℕ} {s : List Bool}

/-! ## Edits that change a node -/

theorem length_memcpy {β : Type} {dst src l : List β} {j i len : ℤ}
    (h : memcpy dst j src i len = some l) : l.length = dst.length := by
  rw [memcpy] at h
  split_ifs at h with hlen hbound
  · cases h
    rfl
  · cases h
    simp only [List.length_append, List.length_take, List.length_drop]
    omega

/-- An array that is copied in two parts around a slot keeps its length. -/
theorem length_copied {β : Type} {c : Prop} [Decidable c] {dst src l : List β}
    {j i len j' i' len' : ℤ}
    (h : (if c then (memcpy dst j src i len).bind fun d => memcpy d j' src i' len'
      else some dst) = some l) : l.length = dst.length := by
  split at h
  · obtain ⟨d, hd, h⟩ := Option.bind_eq_some_iff.mp h
    exact (length_memcpy h).trans (length_memcpy hd)
  · cases h
    rfl

theorem length_newNode {mbCnt nhCnt : ℕ} {r : Region}
    (h : newNode m mbCnt nhCnt level = some (r, m')) :
    r.rules.length ≤ nhCnt ∧ r.children.length ≤ mbCnt := by
  obtain ⟨⟨ret, m₁⟩, -, h⟩ := Option.bind_eq_some_iff.mp h
  cases ret with
  | none =>
      cases h
      exact ⟨Nat.zero_le _, Nat.zero_le _⟩
  | some p =>
      cases h
      exact ⟨List.length_replicate.le, List.length_replicate.le⟩

/-- `reduce_rule` makes the array shorter, whatever the position. -/
theorem ne_of_reduceRule (hn : n.Layout) (hne : n.internal ≠ 0)
    (h : reduceRule m n pos level = some (n', m')) : n' ≠ n := by
  have hpos : 0 < countChildren n.internal := by
    rw [countChildren_eq_card, Finset.card_pos, Finset.nonempty_iff_ne_empty, ne_eq,
      members_eq_empty_iff]
    exact hne
  rw [reduceRule, if_neg (by omega)] at h
  obtain ⟨⟨r, m₁⟩, hnew, h⟩ := Option.bind_eq_some_iff.mp h
  obtain ⟨children, -, h⟩ := Option.bind_eq_some_iff.mp h
  obtain ⟨rules, hrules, h⟩ := Option.bind_eq_some_iff.mp h
  obtain ⟨m₂, -, h⟩ := Option.bind_eq_some_iff.mp h
  cases h
  have hlen : rules.length = r.rules.length := length_copied hrules
  have hle := (length_newNode hnew).1
  have hlt : rules.length < n.rules.length := by
    rw [hn.countRules, hlen]
    omega
  intro heq
  exact hlt.ne (congrArg (fun x => x.rules.length) heq)

/-- So does `reduce_child`. -/
theorem length_lt_of_reduceChild (hn : n.children.length = countChildren n.external)
    (h : reduceChild m n pos level = some (n', m')) : n'.children.length < n.children.length := by
  rw [reduceChild] at h
  obtain ⟨_, hpos, h⟩ := Option.bind_eq_some_iff.mp h
  obtain ⟨⟨r, m₁⟩, hnew, h⟩ := Option.bind_eq_some_iff.mp h
  obtain ⟨rules, -, h⟩ := Option.bind_eq_some_iff.mp h
  obtain ⟨children, hchildren, h⟩ := Option.bind_eq_some_iff.mp h
  obtain ⟨m₂, -, h⟩ := Option.bind_eq_some_iff.mp h
  cases h
  have hlen : children.length = r.children.length := length_copied hchildren
  have hle := (length_newNode hnew).2
  have hone : ¬ countChildren n.external < 1 := (Option.guard_eq_some' _).mp hpos
  rw [hlen, hn]
  omega

theorem store_of_load {β : Type} {l : List β} {i : ℤ} {x : β} (h : load l i = some x) :
    store l i x = some l := by
  rw [load] at h
  split_ifs at h with hi
  obtain ⟨hlt, rfl⟩ := List.getElem?_eq_some_iff.mp h
  rw [store, if_pos (by omega), List.set_getElem_self]

/-- A child that has not changed is put back. -/
theorem setChild_self (h : n.child pos = some c) : n.setChild pos c = some n := by
  rw [MbNode.setChild, store_of_load h]
  cases n
  rfl

/-- A child that has changed changes its parent. -/
theorem ne_of_setChild {c' n₁ : MbNode} (h : n.child pos = some c) (hne : c' ≠ c)
    (hset : n.setChild pos c' = some n₁) :
    n₁ ≠ n ∧ n₁.external = n.external ∧ n₁.children.length = n.children.length := by
  obtain ⟨children, hstore, hset⟩ := Option.bind_eq_some_iff.mp hset
  cases hset
  obtain ⟨j, hj, hc⟩ := child_eq_some_iff.mp h
  have hload : load n.children (nextChild n pos) = some c := h
  rw [store] at hstore
  split_ifs at hstore with hi
  cases hstore
  refine ⟨fun heq => hne ?_, rfl, List.length_set⟩
  have hchildren : n.children.set (nextChild n pos).toNat c' = n.children :=
    congrArg MbNode.children heq
  rw [load, if_pos hi.1, ← hchildren, List.getElem?_set_self (by omega)] at hload
  exact Option.some.inj hload

/-! ## The walk -/

/-- The walk of `bitmap_delete_prefix` along a string, which takes the child at the lowest
set position at or above each stride, ends at a node without next hops. -/
inductive EndsBare : MbNode → List Bool → Prop
  | leaf {n : MbNode} {s : List Bool} (short : s.length < 6) (bare : n.internal = 0) :
      EndsBare n s
  | inner {n c : MbNode} {t s : List Bool} {j : ℕ} (ht : t.length = 6)
      (least : IsLeast {i | i ∈ members n.external ∧ value t ≤ i} j) (kid : n.kid j = some c)
      (rest : EndsBare c s) : EndsBare n (t ++ s)

theorem endsBare_iff_of_lt (hs : s.length < 6) : EndsBare n s ↔ n.internal = 0 := by
  constructor
  · intro h
    cases h with
    | leaf _ bare => exact bare
    | inner ht =>
        rw [List.length_append] at hs
        omega
  · exact .leaf hs

theorem reduceRule_of_bare (h : n.internal = 0) : reduceRule m n pos level = some (n, m) := by
  have hclear : clearBitmap n.internal pos = n.internal := by
    rw [h]
    exact BitVec.zero_and
  have hcount : countChildren n.internal < 1 := by
    rw [h]
    decide
  rw [reduceRule, if_pos hcount, hclear]
  cases n
  rfl

section Walk

variable {ip : α} {trace frames : List (MbNode × ℕ)} {last : MbNode}

theorem level_cons {x : MbNode × ℕ} {t : List Bool} (ht : t.length = 6)
    (hlevel : trace.length + (t ++ s).length / 6 < LEVEL α) :
    (x :: trace).length + s.length / 6 < LEVEL α := by
  rw [List.length_append, ht] at hlevel
  rw [List.length_cons]
  omega

/-- A walk that ends at a node without next hops, and back up: nothing has changed. -/
theorem deleteTrace_of_endsBare (hn : n.Wf w) (h : EndsBare n s) (hip : Spells ip s)
    (hlevel : trace.length + s.length / 6 < LEVEL α) (m : Mm) :
    ∃ last pos frames, deleteTrace n ip s.length trace = some ((last, pos) :: frames) ∧
      updateNodes m ((last, pos) :: frames) = updateParents m n n.isEmpty trace := by
  induction h generalizing w ip trace with
  | @leaf n s short bare =>
      refine ⟨n, inlPos s, trace, deleteTrace_of_lt hip short (by omega), ?_⟩
      rw [updateNodes, reduceRule_of_bare bare]
      rfl
  | @inner n c t s j ht least kid rest ih =>
      have hchild : n.child (value t) = some c := child_eq_some_iff.mpr ⟨j, least, kid⟩
      obtain ⟨last, pos, frames, htrace, hup⟩ :=
        ih (hn.kids kid) (hip.lshift_append ht) (level_cons (x := (n, value t)) ht hlevel)
      refine ⟨last, pos, frames, ?_, ?_⟩
      · rw [deleteTrace_append ht hip (by omega), hchild, Option.bind_some, htrace]
      · rw [hup, hn.full kid, updateParents, setChild_self hchild]
        rfl

/-- A walk that goes through, and back up: the node has changed, unless the walk ended at a
node without next hops. -/
theorem endsBare_or_ne (hn : n.Wf w) (hip : Spells ip s) {r : MbNode} {ret : Bool}
    (hlevel : trace.length + s.length / 6 < LEVEL α)
    (htrace : deleteTrace n ip s.length trace = some frames)
    (hup : updateNodes m frames = some (r, m', ret)) :
    ∃ n' m₁, updateParents m₁ n' n'.isEmpty trace = some (r, m', ret) ∧
      (EndsBare n s ∨ n' ≠ n) := by
  induction s using stride_induction generalizing n w ip trace with
  | leaf s hs =>
      rw [deleteTrace_of_lt hip hs (by omega)] at htrace
      cases htrace
      obtain ⟨⟨n', m₁⟩, hred, hup⟩ := Option.bind_eq_some_iff.mp hup
      refine ⟨n', m₁, hup, ?_⟩
      by_cases hbare : n.internal = 0
      · exact .inl (.leaf hs hbare)
      · exact .inr (ne_of_reduceRule hn.layout hbare hred)
  | inner t s ht ih =>
      rw [deleteTrace_append ht hip (by omega)] at htrace
      obtain ⟨c, hc, htrace⟩ := Option.bind_eq_some_iff.mp htrace
      obtain ⟨j, hj, hkid⟩ := child_eq_some_iff.mp hc
      obtain ⟨c', m₁, hback, hor⟩ :=
        ih (hn.kids hkid) (hip.lshift_append ht) (level_cons ht hlevel) htrace
      obtain ⟨n₁, hset, hback⟩ := Option.bind_eq_some_iff.mp hback
      obtain ⟨⟨n', m₂⟩, hred, hback⟩ := Option.bind_eq_some_iff.mp hback
      refine ⟨n', m₂, hback, ?_⟩
      rcases hor with hbare | hne
      · exact .inl (.inner ht hj hkid hbare)
      · obtain ⟨hne₁, hext, hlen⟩ := ne_of_setChild hc hne hset
        right
        split at hred
        · have hlt := length_lt_of_reduceChild (by rw [hlen, hext, hn.layout.countKids]) hred
          intro heq
          rw [heq, hlen] at hlt
          exact lt_irrefl _ hlt
        · cases hred
          exact hne₁

/-- What the last node of a walk holds is stored. -/
theorem exists_get_of_deleteTrace (hn : n.Wf w) (hip : Spells ip s)
    (hlevel : trace.length + s.length / 6 < LEVEL α)
    (htrace : deleteTrace n ip s.length trace = some ((last, pos) :: frames)) {v : Nhi}
    (hv : v ∈ last.rules) : ∃ u, n.get u = some v := by
  induction s using stride_induction generalizing n w ip trace with
  | leaf s hs =>
      rw [deleteTrace_of_lt hip hs (by omega)] at htrace
      cases htrace
      obtain ⟨i, hi, hrule⟩ := exists_lookup_eq hn.layout.rules_length hv
      obtain ⟨u, hu, rfl⟩ := exists_inlPos_eq (hn.internal hi)
      exact ⟨u, (MbNode.get_of_lt (by omega)).trans hrule⟩
  | inner t s ht ih =>
      rw [deleteTrace_append ht hip (by omega)] at htrace
      obtain ⟨c, hc, htrace⟩ := Option.bind_eq_some_iff.mp htrace
      obtain ⟨j, hj, hkid⟩ := child_eq_some_iff.mp hc
      obtain ⟨u, hu⟩ := ih (hn.kids hkid) (hip.lshift_append ht) (level_cons ht hlevel) htrace
      obtain ⟨a, ha, rfl⟩ := exists_value_eq (v := j) (k := 6) (lt_of_mem_members hj.1.1)
      exact ⟨a ++ u, by rw [MbNode.get_append ha, hkid]; exact hu⟩

end Walk

/-- **A delete that ends at a node without next hops leaves the trie alone.** -/
theorem deletePrefix_of_endsBare (hn : n.Wf w) (h : EndsBare n s) {ip : α} (hip : Spells ip s)
    (m : Mm) : deletePrefix m n ip s.length false = some (n, m, n.isEmpty, []) := by
  obtain ⟨last, pos, frames, htrace, hup⟩ :=
    deleteTrace_of_endsBare hn h hip (level_nil hip.length_le) m
  rw [updateParents] at hup
  rw [deletePrefix, htrace]
  simp [hup]

/-- **No other delete does.** -/
theorem endsBare_of_deletePrefix (hn : n.Wf w) {ip : α} (hip : Spells ip s) {d ret : Bool}
    {calls : List Nhi} (h : deletePrefix m n ip s.length d = some (n, m', ret, calls)) :
    EndsBare n s := by
  obtain ⟨frames, htrace, h⟩ := Option.bind_eq_some_iff.mp h
  obtain ⟨⟨last, pos⟩, -, h⟩ := Option.bind_eq_some_iff.mp h
  obtain ⟨calls', -, h⟩ := Option.bind_eq_some_iff.mp h
  obtain ⟨⟨r, m₁, ret'⟩, hup, h⟩ := Option.bind_eq_some_iff.mp h
  cases h
  obtain ⟨n', m₂, hback, hor⟩ := endsBare_or_ne hn hip (level_nil hip.length_le) htrace hup
  cases hback
  exact hor.resolve_right (not_not.mpr rfl)

/-- **Whatever a delete gives to its callback is stored**, under some prefix. -/
theorem exists_get_of_deletePrefix (hn : n.Wf w) {ip : α} (hip : Spells ip s) {ret : Bool}
    {calls : List Nhi} (h : deletePrefix m n ip s.length true = some (n', m', ret, calls)) :
    ∃ v u, calls = [v] ∧ n.get u = some v := by
  obtain ⟨frames, htrace, h⟩ := Option.bind_eq_some_iff.mp h
  obtain ⟨⟨last, pos⟩, hhead, h⟩ := Option.bind_eq_some_iff.mp h
  obtain ⟨calls', hcalls, h⟩ := Option.bind_eq_some_iff.mp h
  obtain ⟨⟨r, m₁, ret'⟩, hup, h⟩ := Option.bind_eq_some_iff.mp h
  cases h
  obtain ⟨rest, rfl⟩ := List.head?_eq_some_iff.mp hhead
  obtain ⟨v, hderef, hcalls⟩ := Option.bind_eq_some_iff.mp hcalls
  cases hcalls
  have hv : v ∈ last.rules := by
    rw [NhiPtr.deref, load] at hderef
    split_ifs at hderef with hslot
    exact List.mem_of_getElem? hderef
  obtain ⟨u, hu⟩ := exists_get_of_deleteTrace hn hip (level_nil hip.length_le) htrace hv
  exact ⟨v, u, rfl, hu⟩

/-! ## Asking whether a prefix is stored -/

/-- **`bitmap_prefix_exist`** tells whether a string is stored. -/
theorem prefixExist_eq (hn : n.Wf w) {ip : α} (hip : Spells ip s) :
    prefixExist n ip s.length = some (if (n.get s).isSome then 1 else 0) := by
  have htraverse : traverseBranch prefixExistFunc n ip s.length () =
      some (if (n.get s).isSome then 1 else 0, n, ()) := by
    induction s using stride_induction generalizing n w ip with
    | leaf s hs =>
        rw [traverseBranch, if_pos (by exact hs), hip.leafPos_eq hs, prefixExistFunc,
          MbNode.get_of_lt hs]
        by_cases hmem : inlPos s ∈ members n.internal
        · obtain ⟨v, hv⟩ := exists_rule hn.layout hmem
          rw [if_neg (not_not.mpr (testBitmap_iff.mpr hmem)), hv]
          rfl
        · rw [if_pos fun h => hmem (testBitmap_iff.mp h),
            (rule_eq_none_iff hn.layout).mpr hmem]
          rfl
    | inner t s ht ih =>
        have hlen : (t ++ s).length = s.length + 6 := by rw [List.length_append, ht, Nat.add_comm]
        rw [traverseBranch, if_neg (by rw [STRIDE_eq]; omega), hip.strideOf_append ht, hlen,
          MbNode.get_append ht]
        by_cases hmem : value t ∈ members n.external
        · obtain ⟨c, hc⟩ := exists_kid hn.layout hmem
          have hchild : n.child (value t) = some c := load_nextChild hc
          have hrec := ih (hn.kids hc) (hip.lshift_append ht)
          simp [prefixExistFunc, testBitmap_iff.mpr hmem, hchild, hrec, setChild_self hchild, hc]
        · have htest : testBitmap n.external (value t) = false :=
            Bool.eq_false_iff.mpr fun h => hmem (testBitmap_iff.mp h)
          have hc : n.kid (value t) = none := lookup_of_notMem hmem
          simp [prefixExistFunc, htest, hc, TRAVERSE_CONT]
  rw [prefixExist, htraverse]
  rfl

end TreeBitmap
