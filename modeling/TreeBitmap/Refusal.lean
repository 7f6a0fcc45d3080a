import TreeBitmap.Canonical
import TreeBitmap.Queries
import TreeBitmap.Stray

/-!
# An allocation that fails

`new_node` passes a `NULL` of `alloc_node` on, and the comment over `bitmap_insert_prefix`
promises `-1` for an error.  Nobody looks at either: `extend_rule` stores the next hop through
the pointer, `extend_child` returns an offset from it, and no path of the insert returns `-1`.

The memory manager that refuses one request differs from the one that answers it at that
request only, so that up to there the insert does the same.

## Main definitions

* `Mm.refusing` — the memory manager, but for one request.
* `Requests` — a call of `alloc_node` that an insert makes.
* `FailsSafely` — what the comment promises.
* `insertPrefix_asks` — **an insert that is refused a block faults**.
* `bitmap_insert_failsSafely_iff` — **when an insert keeps the promise**: if it needs no block.
-/

namespace TreeBitmap

/-- The memory manager that answers its `k`-th call, if it is one of `alloc_node`, with `NULL`. -/
def Mm.refusing (m : Mm) (k : ℕ) : Mm :=
  { m with op := fun calls nodeNum level =>
      decide (calls.length ≠ k) && m.op calls nodeNum level }

/-- The calls, in order. -/
def Mm.log (m : Mm) : List MmCall := m.calls.reverse

/-- The `k`-th call is one of `alloc_node`. -/
def Mm.AllocatesAt (m : Mm) (k : ℕ) : Prop :=
  ∃ nodeNum level ret, m.log[k]? = some (.alloc nodeNum level ret)

variable {α : Type} [IpAddr α] {m m' : Mm} {n n' : MbNode} {k pos level : ℕ}

@[simp] theorem length_log (m : Mm) : m.log.length = m.calls.length := List.length_reverse

theorem Mm.AllocatesAt.lt (h : m.AllocatesAt k) : k < m.calls.length := by
  obtain ⟨a, l, q, hget⟩ := h
  obtain ⟨hlt, -⟩ := List.getElem?_eq_some_iff.mp hget
  rwa [length_log] at hlt

/-! ## The memory manager -/

theorem allocNode_refusing (hk : m.calls.length ≠ k) (nodeNum level : ℕ) :
    allocNode (m.refusing k) nodeNum level =
      (allocNode m nodeNum level).map fun r => (r.1, r.2.refusing k) := by
  rw [allocNode, allocNode]
  split
  · simp [Mm.refusing, hk]
  · rfl

theorem deallocNode_refusing (m : Mm) (k nodeNum level : ℕ) (p : Ptr) :
    deallocNode (m.refusing k) nodeNum level p =
      (deallocNode m nodeNum level p).map fun m => m.refusing k := by
  rw [deallocNode, deallocNode]
  split <;> rfl

theorem newNode_refusing (hk : m.calls.length ≠ k) (mbCnt nhCnt level : ℕ) :
    newNode (m.refusing k) mbCnt nhCnt level =
      (newNode m mbCnt nhCnt level).map fun r => (r.1, r.2.refusing k) := by
  rw [newNode, newNode, allocNode_refusing hk]
  cases allocNode m (upChild mbCnt + upRule nhCnt) level with
  | none => rfl
  | some r =>
      obtain ⟨ret, m'⟩ := r
      cases ret <;> rfl

/-- The refused request: a `NULL` block, which has no slots. -/
theorem newNode_refused {mbCnt nhCnt : ℕ} {r : Region}
    (h : newNode (m.refusing m.calls.length) mbCnt nhCnt level = some (r, m')) :
    r = ⟨none, [], []⟩ := by
  rw [newNode, allocNode] at h
  split at h
  · simp only [Mm.refusing, ne_eq, not_true_eq_false, decide_false, Bool.false_and,
      Bool.false_eq_true, if_false, Option.bind_eq_bind, Option.bind_some] at h
    cases h
    rfl
  · cases h

theorem freeOld_refusing (m : Mm) (n : MbNode) (k ruleNum childNum level : ℕ) :
    freeOld (m.refusing k) n ruleNum childNum level =
      (freeOld m n ruleNum childNum level).map fun m => m.refusing k := by
  rw [freeOld, freeOld]
  cases n.childPtr with
  | none => rfl
  | some p => exact deallocNode_refusing m k _ _ _

theorem log_newNode {mbCnt nhCnt : ℕ} {r : Region}
    (h : newNode m mbCnt nhCnt level = some (r, m')) :
    ∃ nodeNum ret, m'.log = m.log ++ [.alloc nodeNum level ret] := by
  obtain ⟨⟨ret, m₁⟩, halloc, h⟩ := Option.bind_eq_some_iff.mp h
  have hm : m₁ = m' := by
    cases ret <;> cases h <;> rfl
  subst hm
  rw [allocNode] at halloc
  split at halloc
  · cases halloc
    exact ⟨_, _, List.reverse_cons⟩
  · cases halloc

theorem log_freeOld {ruleNum childNum : ℕ} (h : freeOld m n ruleNum childNum level = some m') :
    m'.log = m.log ∨ ∃ nodeNum p, m'.log = m.log ++ [.dealloc nodeNum level p] := by
  rw [freeOld] at h
  split at h
  · cases h
    exact .inl rfl
  · rw [freeNode, deallocNode] at h
    split at h
    · cases h
      exact .inr ⟨_, _, List.reverse_cons⟩
    · cases h

/-- What an edit adds to the log: a request, and then the release of the old block. -/
def Edit (m m' : Mm) : Prop :=
  ∃ nodeNum level ret rest, m'.log = m.log ++ .alloc nodeNum level ret :: rest ∧
    ∀ nodeNum level ret, .alloc nodeNum level ret ∉ rest

theorem edit_of_newNode {mbCnt nhCnt ruleNum childNum : ℕ} {r : Region} {m₁ : Mm}
    (hnew : newNode m mbCnt nhCnt level = some (r, m₁))
    (hfree : freeOld m₁ n ruleNum childNum level = some m') : Edit m m' := by
  obtain ⟨nodeNum, ret, hlog⟩ := log_newNode hnew
  rcases log_freeOld hfree with hlog' | ⟨nodeNum', p, hlog'⟩
  · exact ⟨nodeNum, level, ret, [], hlog'.trans hlog, by simp⟩
  · refine ⟨nodeNum, level, ret, [.dealloc nodeNum' level p], ?_, by simp⟩
    rw [hlog', hlog, List.append_assoc]
    rfl

/-- The only request that an edit makes is its first call. -/
theorem Edit.eq_of_allocatesAt (h : Edit m m') (hk : m.calls.length ≤ k)
    (halloc : m'.AllocatesAt k) : k = m.calls.length := by
  obtain ⟨a, l, q, rest, hlog, hrest⟩ := h
  obtain ⟨a', l', q', hget⟩ := halloc
  by_contra hne
  rw [hlog, List.getElem?_append_right (by rw [length_log]; exact hk), length_log,
    List.getElem?_cons, if_neg (by omega)] at hget
  exact hrest a' l' q' (List.mem_of_getElem? hget)

theorem Edit.allocatesAt (h : Edit m m') : m'.AllocatesAt m.calls.length := by
  obtain ⟨a, l, q, rest, hlog, -⟩ := h
  refine ⟨a, l, q, ?_⟩
  rw [hlog, List.getElem?_append_right (length_log m).le, length_log, Nat.sub_self]
  rfl

theorem Edit.log_prefix (h : Edit m m') : m.log <+: m'.log := by
  obtain ⟨a, l, q, rest, hlog, -⟩ := h
  exact ⟨_, hlog.symm⟩

/-! ## The two edits -/

theorem store_nil {β : Type} (i : ℤ) (x : β) : store [] i x = none := by
  rw [store, if_neg]
  rintro ⟨h0, hlt⟩
  rw [List.length_nil] at hlt
  omega

theorem load_nil {β : Type} (i : ℤ) : load ([] : List β) i = none := by
  rw [load]
  split <;> rfl

/-- What `extend_rule` does with the memory manager: it asks for a block, which must have slots,
and gives the old one back. -/
theorem extendRule_cases {nhi : Nhi} (h : extendRule m n pos level nhi = some (n', m')) :
    ∃ r m₁, newNode m (countChildren n.external) (countChildren n.internal + 1) level =
        some (r, m₁) ∧ r.rules ≠ [] ∧
      freeOld m₁ n (countChildren n.internal) (countChildren n.external) level = some m' := by
  obtain ⟨⟨r, m₁⟩, hnew, h⟩ := Option.bind_eq_some_iff.mp h
  obtain ⟨children, -, h⟩ := Option.bind_eq_some_iff.mp h
  obtain ⟨rules, hrules, h⟩ := Option.bind_eq_some_iff.mp h
  obtain ⟨rules', hstore, h⟩ := Option.bind_eq_some_iff.mp h
  obtain ⟨m₂, hfree, h⟩ := Option.bind_eq_some_iff.mp h
  cases h
  refine ⟨r, m₁, hnew, fun hnil => ?_, hfree⟩
  have hlen : rules.length = r.rules.length := length_copied hrules
  rw [hnil] at hlen
  rw [List.eq_nil_of_length_eq_zero hlen, store_nil] at hstore
  cases hstore

/-- What `extend_child` does with it.  The children are in the slots of the new block, and
nothing but that block comes from the memory manager. -/
theorem extendChild_cases {slot : ℤ} (h : extendChild m n level pos = some (n', slot, m')) :
    ∃ r m₁, newNode m (countChildren n.external + 1) (countChildren n.internal) level =
        some (r, m₁) ∧
      freeOld m₁ n (countChildren n.internal) (countChildren n.external) level = some m' ∧
      n'.children.length = r.children.length ∧
      ∀ m₂ m₃ m₄, newNode m₂ (countChildren n.external + 1) (countChildren n.internal) level =
          some (r, m₃) →
        freeOld m₃ n (countChildren n.internal) (countChildren n.external) level = some m₄ →
        extendChild m₂ n level pos = some (n', slot, m₄) := by
  obtain ⟨⟨r, m₁⟩, hnew, h⟩ := Option.bind_eq_some_iff.mp h
  obtain ⟨rules, hrules, h⟩ := Option.bind_eq_some_iff.mp h
  obtain ⟨children, hchildren, h⟩ := Option.bind_eq_some_iff.mp h
  obtain ⟨m₂, hfree, h⟩ := Option.bind_eq_some_iff.mp h
  cases h
  refine ⟨r, m₁, hnew, hfree, length_copied hchildren, fun m₂ m₃ m₄ hnew' hfree' => ?_⟩
  refine Option.bind_eq_some_iff.mpr ⟨(r, m₃), hnew', ?_⟩
  refine Option.bind_eq_some_iff.mpr ⟨rules, hrules, ?_⟩
  refine Option.bind_eq_some_iff.mpr ⟨children, hchildren, ?_⟩
  exact Option.bind_eq_some_iff.mpr ⟨m₄, hfree', rfl⟩

theorem extendRule_edit {nhi : Nhi} (h : extendRule m n pos level nhi = some (n', m')) :
    Edit m m' := by
  obtain ⟨r, m₁, hnew, -, hfree⟩ := extendRule_cases h
  exact edit_of_newNode hnew hfree

theorem extendChild_edit {slot : ℤ} (h : extendChild m n level pos = some (n', slot, m')) :
    Edit m m' := by
  obtain ⟨r, m₁, hnew, hfree, -, -⟩ := extendChild_cases h
  exact edit_of_newNode hnew hfree

/-- An edit whose request is not the refused one does the same. -/
theorem extendChild_refusing {slot : ℤ} (hk : m.calls.length ≠ k)
    (h : extendChild m n level pos = some (n', slot, m')) :
    extendChild (m.refusing k) n level pos = some (n', slot, m'.refusing k) := by
  obtain ⟨r, m₁, hnew, hfree, -, hedit⟩ := extendChild_cases h
  refine hedit _ (m₁.refusing k) _ ?_ ?_
  · rw [newNode_refusing hk, hnew]
    rfl
  · rw [freeOld_refusing, hfree]
    rfl

/-- `extend_rule` stores the next hop through the `NULL` that it was given. -/
theorem extendRule_refused (n : MbNode) (pos level : ℕ) (nhi : Nhi) :
    extendRule (m.refusing m.calls.length) n pos level nhi = none := by
  by_contra hsome
  obtain ⟨r, h⟩ := Option.ne_none_iff_exists'.mp hsome
  obtain ⟨r, m₁, hnew, hrules, -⟩ := extendRule_cases h
  rw [newNode_refused hnew] at hrules
  exact hrules rfl

/-- `extend_child` returns a slot of a block that has none. -/
theorem extendChild_refused {slot : ℤ}
    (h : extendChild (m.refusing m.calls.length) n level pos = some (n', slot, m')) :
    n'.children = [] := by
  obtain ⟨r, m₁, hnew, -, hchildren, -⟩ := extendChild_cases h
  rw [newNode_refused hnew] at hchildren
  exact List.eq_nil_of_length_eq_zero hchildren

/-! ## The descent -/

/-- What an insert does with the memory manager: it adds to the log, it faults if one of its
requests is refused, and its first call is a request unless the prefix was there. -/
structure Asks (m m' : Mm) (ret : ℤ) (refused : ℕ → Option (MbNode × Mm × ℤ)) : Prop where
  log : m.log <+: m'.log
  faults : ∀ k, m.calls.length ≤ k → m'.AllocatesAt k → refused k = none
  asks : ret = 0 → m'.AllocatesAt m.calls.length

theorem Mm.AllocatesAt.mono (hlog : m.log <+: m'.log) (h : m.AllocatesAt k) :
    m'.AllocatesAt k := by
  have hlt : k < m.log.length := (length_log m).symm ▸ h.lt
  obtain ⟨a, l, q, hget⟩ := h
  obtain ⟨rest, hrest⟩ := hlog
  exact ⟨a, l, q, by rw [← hrest, List.getElem?_append_left hlt, hget]⟩

theorem Mm.AllocatesAt.of_lt (hlog : m.log <+: m'.log) (hk : k < m.calls.length)
    (h : m'.AllocatesAt k) : m.AllocatesAt k := by
  obtain ⟨a, l, q, hget⟩ := h
  obtain ⟨rest, hrest⟩ := hlog
  rw [← hrest, List.getElem?_append_left (by rwa [length_log])] at hget
  exact ⟨a, l, q, hget⟩

theorem insertLeaf_asks {nhi : Nhi} {ret : ℤ} {ip : α} {cidr : ℕ} (hlt : cidr < STRIDE)
    (h : insertPrefix m n ip cidr level nhi = some (n', m', ret)) :
    Asks m m' ret fun k => insertPrefix (m.refusing k) n ip cidr level nhi := by
  rw [insertPrefix, if_pos hlt] at h
  by_cases htest : testBitmap n.internal (leafPos ip cidr) = true
  · -- the prefix is there: no request
    rw [if_pos htest] at h
    obtain ⟨n₁, -, h⟩ := Option.bind_eq_some_iff.mp h
    cases h
    exact ⟨List.prefix_rfl, fun k hk halloc => absurd halloc.lt (Nat.not_lt.mpr hk),
      fun h => absurd h (by decide)⟩
  · rw [if_neg htest] at h
    obtain ⟨⟨n₁, m₁⟩, hext, h⟩ := Option.bind_eq_some_iff.mp h
    cases h
    have hedit := extendRule_edit hext
    refine ⟨hedit.log_prefix, fun k hk halloc => ?_, fun _ => hedit.allocatesAt⟩
    obtain rfl := hedit.eq_of_allocatesAt hk halloc
    rw [insertPrefix, if_pos hlt, if_neg htest, extendRule_refused]
    rfl

/-- The step down that an insert takes. -/
theorem insertPrefix_cases {nhi : Nhi} {ret : ℤ} {ip : α} {cidr : ℕ} (hge : ¬ cidr < STRIDE)
    (h : insertPrefix m n ip cidr level nhi = some (n', m', ret)) :
    ∃ n₁ slot m₁ c c',
      (if testBitmap n.external (strideOf ip) then some (n, nextChild n (strideOf ip), m)
        else extendChild m n level (strideOf ip)) = some (n₁, slot, m₁) ∧
      load n₁.children slot = some c ∧
      insertPrefix m₁ c (IpAddr.lshift ip STRIDE) (cidr - STRIDE) (u8 (level + 1)) nhi =
        some (c', m', ret) := by
  rw [insertPrefix, if_neg hge] at h
  obtain ⟨⟨n₁, slot, m₁⟩, henter, h⟩ := Option.bind_eq_some_iff.mp h
  obtain ⟨c, hload, h⟩ := Option.bind_eq_some_iff.mp h
  obtain ⟨⟨c', m₂, ret'⟩, hrec, h⟩ := Option.bind_eq_some_iff.mp h
  obtain ⟨children, -, h⟩ := Option.bind_eq_some_iff.mp h
  cases h
  exact ⟨n₁, slot, m₁, c, c', henter, hload, hrec⟩

/-- An insert faults if every step down that it can take leads to an insert that does. -/
theorem insertPrefix_eq_none {nhi : Nhi} {ip : α} {cidr : ℕ} (hge : ¬ cidr < STRIDE)
    (h : ∀ n₁ slot m₁ c,
      (if testBitmap n.external (strideOf ip) then some (n, nextChild n (strideOf ip), m)
        else extendChild m n level (strideOf ip)) = some (n₁, slot, m₁) →
      load n₁.children slot = some c →
      insertPrefix m₁ c (IpAddr.lshift ip STRIDE) (cidr - STRIDE) (u8 (level + 1)) nhi = none) :
    insertPrefix m n ip cidr level nhi = none := by
  by_contra hsome
  obtain ⟨r, hr⟩ := Option.ne_none_iff_exists'.mp hsome
  obtain ⟨n₁, slot, m₁, c, c', henter, hload, hrec⟩ := insertPrefix_cases hge hr
  rw [h n₁ slot m₁ c henter hload] at hrec
  cases hrec

/-- **An insert that is refused a block faults**, whichever of its requests it is. -/
theorem insertPrefix_asks {nhi : Nhi} {ret : ℤ} {ip : α} {cidr : ℕ}
    (h : insertPrefix m n ip cidr level nhi = some (n', m', ret)) :
    Asks m m' ret fun k => insertPrefix (m.refusing k) n ip cidr level nhi := by
  induction cidr using Nat.strong_induction_on generalizing m m' n n' ip level ret with
  | _ cidr ih =>
      by_cases hlt : cidr < STRIDE
      · exact insertLeaf_asks hlt h
      · have hsub : cidr - STRIDE < cidr := by
          rw [STRIDE_eq] at *
          omega
        obtain ⟨n₁, slot, m₁, c, c', henter, hload, hrec⟩ := insertPrefix_cases hlt h
        have hasks := ih _ hsub hrec
        by_cases htest : testBitmap n.external (strideOf ip) = true
        · -- the child is there: every request is one of the steps below
          rw [if_pos htest] at henter
          cases henter
          refine ⟨hasks.log, fun k hk halloc => insertPrefix_eq_none hlt ?_, hasks.asks⟩
          intro n₂ slot₂ m₂ c₂ henter₂ hload₂
          rw [if_pos htest] at henter₂
          cases henter₂
          cases hload.symm.trans hload₂
          exact hasks.faults k hk halloc
        · rw [if_neg htest] at henter
          have hedit := extendChild_edit henter
          refine ⟨hedit.log_prefix.trans hasks.log,
            fun k hk halloc => insertPrefix_eq_none hlt ?_,
            fun _ => hedit.allocatesAt.mono hasks.log⟩
          intro n₂ slot₂ m₂ c₂ henter₂ hload₂
          rw [if_neg htest] at henter₂
          by_cases hfirst : m.calls.length = k
          · subst hfirst
            rw [extendChild_refused henter₂, load_nil] at hload₂
            cases hload₂
          · have hle : m₁.calls.length ≤ k := by
              by_contra hlt'
              exact hfirst (hedit.eq_of_allocatesAt hk
                (halloc.of_lt hasks.log (Nat.lt_of_not_le hlt'))).symm
            cases (extendChild_refusing hfirst henter).symm.trans henter₂
            cases hload.symm.trans hload₂
            exact hasks.faults k hle halloc

/-! ## What the comment promises -/

/-- `bitmap_insert_prefix` makes its request `k` of `alloc_node` as it inserts `p`. -/
def Requests (root : MbNode) (m : Mm) (p : Prefix IpV4) (nhi : Nhi) (k : ℕ) : Prop :=
  ∃ root' m' ret, bitmapInsertPrefix root m p.ip p.cidr nhi = some (root', m', ret) ∧
    m.calls.length ≤ k ∧ m'.AllocatesAt k

/-- The insert has reported an error, and the trie holds what it held, in the same arrays. -/
def FailsSafely (root : MbNode) (r : Option (MbNode × Mm × ℤ)) : Prop :=
  ∃ root' m', r = some (root', m', -1) ∧ root'.contents = root.contents

theorem Requests.eq_none {root : MbNode} {p : Prefix IpV4} {nhi : Nhi}
    (h : Requests root m p nhi k) :
    bitmapInsertPrefix root (m.refusing k) p.ip p.cidr nhi = none := by
  obtain ⟨root', m', ret, hins, hk, halloc⟩ := h
  exact (insertPrefix_asks hins).faults k hk halloc

theorem Requests.not_failsSafely {root : MbNode} {p : Prefix IpV4} {nhi : Nhi}
    (h : Requests root m p nhi k) :
    ¬ FailsSafely root (bitmapInsertPrefix root (m.refusing k) p.ip p.cidr nhi) := by
  rintro ⟨root', m', hins, -⟩
  rw [h.eq_none] at hins
  cases hins

/-- An insert makes a request just if its prefix is new, and then it begins with one. -/
theorem Mirrors.requests_iff {root : MbNode} {T : Stored IpV4} (h : Mirrors (root, m) T)
    (p : Prefix IpV4) (nhi : Nhi) :
    (p ∈ T → ∀ k, ¬ Requests root m p nhi k) ∧
      (p ∉ T → Requests root m p nhi m.calls.length) := by
  have hlen : p.bits.length ≤ IpAddr.LENGTH IpV4 := p.length_bits ▸ p.cidr_le
  constructor
  · rintro hp k ⟨root', m', ret, hins, hk, halloc⟩
    have hsome := Option.isSome_iff_ne_none.mp ((h.isSome_get_iff p).mpr hp)
    obtain ⟨n', hins', -⟩ :=
      insertPrefix_of_get (m := m) h.wf p.spells hsome (level_zero IpV4) nhi
    rw [p.length_bits] at hins'
    cases hins.symm.trans hins'
    exact absurd halloc.lt (Nat.not_lt.mpr hk)
  · intro hp
    obtain ⟨root', m', hins, -⟩ :=
      insertPrefix_spec h.succeeds h.wf p.spells hlen (level_zero IpV4) nhi
    have hret : insertRet root p.bits = 0 :=
      if_neg fun hsome => hp ((h.isSome_get_iff p).mp hsome)
    rw [p.length_bits] at hins
    exact ⟨root', m', _, hins, le_rfl, (insertPrefix_asks hins).asks hret⟩

/-- **When an insert keeps the promise**, after any run: just if its prefix is stored, so that
there is no request that could fail.  One that is refused a block faults. -/
theorem bitmap_insert_failsSafely_iff {ops : List (Op IpV4)} (hm : m.Succeeds)
    (hops : (storedMachine IpV4).Legal ∅ ops) :
    ∃ root m', ops.foldlM bitmapStep (.zero, m) = some (root, m') ∧
      ∀ (p : Prefix IpV4) nhi,
        ((∀ k, Requests root m' p nhi k →
          FailsSafely root (bitmapInsertPrefix root (m'.refusing k) p.ip p.cidr nhi)) ↔
            p ∈ (storedMachine IpV4).exec ∅ ops) ∧
        ∀ k, Requests root m' p nhi k →
          bitmapInsertPrefix root (m'.refusing k) p.ip p.cidr nhi = none := by
  obtain ⟨⟨root, m'⟩, hrun, hmir⟩ := exists_trieStep_run hm hops
  refine ⟨root, m', bitmapStep_eq ▸ hrun, fun p nhi => ⟨?_, fun k h => h.eq_none⟩⟩
  obtain ⟨hstored, hnew⟩ := hmir.requests_iff p nhi
  constructor
  · intro hsafe
    by_contra hp
    exact (hnew hp).not_failsSafely (hsafe _ (hnew hp))
  · exact fun hp k hk => absurd hk (hstored hp k)

theorem bitmap_insert_failsSafely_iff_tenSlash8 :
    ∃ root m', tenOps.foldlM bitmapStep (.zero, mmInit simple) = some (root, m') ∧
      ∀ (p : Prefix IpV4) nhi,
        ((∀ k, Requests root m' p nhi k →
          FailsSafely root (bitmapInsertPrefix root (m'.refusing k) p.ip p.cidr nhi)) ↔
            p ∈ (storedMachine IpV4).exec ∅ tenOps) ∧
        ∀ k, Requests root m' p nhi k →
          bitmapInsertPrefix root (m'.refusing k) p.ip p.cidr nhi = none :=
  bitmap_insert_failsSafely_iff succeeds_mmInit_simple legal_tenOps

/-- The first insert of all, refused the block of its first child, does not return `-1`: it
faults. -/
theorem bitmap_insert_faults :
    Requests .zero (mmInit simple) tenSlash8 1 0 ∧
      ¬ FailsSafely .zero
        (bitmapInsertPrefix .zero ((mmInit simple).refusing 0) tenSlash8.ip tenSlash8.cidr 1) := by
  have hreq : Requests .zero (mmInit simple) tenSlash8 1 0 :=
    ((mirrors_zero succeeds_mmInit_simple).requests_iff tenSlash8 1).2 Finmap.notMem_empty
  exact ⟨hreq, hreq.not_failsSafely⟩

end TreeBitmap
