import TreeBitmap.Stray
import TreeBitmap.InitTable

/-!
# Deletes of prefixes that are not stored

`tbm_delete_prefix` takes it for granted that its prefix is stored: an entry that no
longer prefix hides is taken to hold this one ("only possible prefix == cidr"), and the
two tries are walked without a test.  What such a delete does depends on what else is
stored.  It gives away the next hop of a shorter prefix, or takes a next hop out of a node
whose position for it is clear, or reads outside an array; or it finds nothing there.

## Main definitions

* `TbmTrie.Misses trie p d` — the delete finds nothing there.
* `tbmDelete_of_misses`, `misses_of_tbmDelete` — **when a delete leaves the engine alone**.
* `callerMachine`, `Heeds` — callers that delete whatever they like, if the delete misses.
* `tbm_run_delete_absent` — **such deletes change nothing**.
-/

namespace TreeBitmap

open BitString LongestMatch IpAddr

/-! ## Entries -/

theorem setPtr_eq_self {e : InitNode} {f : BitVec 32} {v : Nhi} (hf : e.flags = f)
    (hv : e.ptr = v) : InitNode.setPtr ⟨f, e.node⟩ v = e := by
  subst hf hv
  obtain ⟨flags, node⟩ := e
  cases node
  rfl

theorem putRule_self {n : MbNode} {pos : ℕ} {v : Nhi} (h : n.rule pos = some v) :
    n.putRule pos v = n := by
  have hget := h
  rw [MbNode.rule, Ranked.lookup_of_mem (mem_of_rule h)] at hget
  obtain ⟨hlt, hv⟩ := List.getElem?_eq_some_iff.mp hget
  rw [MbNode.putRule, ← hv, List.set_getElem_self]
  cases n
  rfl

theorem exists_of_lpm {T : Table Bool Nhi} {s : List Bool} {v : Nhi} (h : lpm T s = some v) :
    ∃ q, T q = some v := by
  obtain ⟨q, -, hq, -⟩ := lpm_eq_some_iff.mp h
  exact ⟨q, hq⟩

theorem exists_of_pushed {T : Table Bool Nhi} {s u : List Bool} {v : Nhi}
    (h : pushed T s u = some v) : ∃ q, T q = some v := by
  cases u with
  | nil => exact exists_of_lpm h
  | cons a u => exact ⟨s ++ a :: u, h⟩

section Entry

variable {α : Type} [IpAddr α] {m m' : Mm} {w cidr : ℕ} {T : Table Bool Nhi} {s : List Bool}
  {e e' : InitNode} {d d' : Bool} {calls : List Nhi}

/-- An entry under a longer prefix is skipped. -/
theorem deleteEntry_of_lt (h : Holds w T s e) (hs : s.length = INITIAL_BITS)
    (hlt : cidr < coverLength T s) (near : ℕ) (nhiNear : Nhi) :
    deleteEntry α e m cidr near nhiNear d = some (e, m, d, []) := by
  have hk : coverLength T s ≤ INITIAL_BITS := hs ▸ coverLength_le T s
  simp only [deleteEntry, h.u8_prefixHi hk, if_pos hlt, ite_self]

/-- A bare next hop is put back. -/
theorem deleteEntry_pointer (h : Holds w T s e) (hs : s.length = INITIAL_BITS)
    (hnil : T [] = none) (hle : coverLength T s ≤ cidr) (hchild : e.hasChild = false) :
    deleteEntry α e m cidr (coverLength T s) ((lpm T s).getD 0) d =
      some (e, m, false, if d then [(lpm T s).getD 0] else []) := by
  have hk : coverLength T s ≤ INITIAL_BITS := hs ▸ coverLength_le T s
  obtain ⟨flags, -, ptr, -⟩ := h.of_not_hasChild hk hchild
  rw [deleteEntry, hchild, h.u8_prefixHi hk, if_neg (by decide), if_neg (not_lt.mpr hle), ptr]
  by_cases hzero : coverLength T s = 0
  · rw [hzero, prefixFlags_zero] at flags
    rw [lpm_of_coverLength_eq_zero hnil hzero, Option.getD_none] at ptr ⊢
    simp only [if_pos hzero, setPtr_eq_self flags ptr]
  · simp only [if_neg hzero, setPtr_eq_self flags ptr]

/-- So is the next hop that covers a trie. -/
theorem deleteEntry_cover (h : Holds w T s e) (hs : s.length = INITIAL_BITS)
    (hle : coverLength T s ≤ cidr) (hchild : e.hasChild = true) {v : Nhi}
    (hne : coverLength T s ≠ 0) (hv : lpm T s = some v) :
    deleteEntry α e m cidr (coverLength T s) ((lpm T s).getD 0) d =
      some (e, m, false, if d then [v] else []) := by
  have hk : coverLength T s ≤ INITIAL_BITS := hs ▸ coverLength_le T s
  obtain ⟨flags, wf, get, -⟩ := h.of_hasChild hk hchild
  have hgetv : e.node.get [] = some v := by rw [get, pushed_nil, hv]
  have hrule : e.node.rule 0 = some v :=
    (MbNode.get_of_lt (s := []) (by decide)).symm.trans hgetv
  rw [deleteEntry, hchild, h.u8_prefixHi hk, if_pos rfl, if_neg (not_lt.mpr hle), if_neg hne, hv,
    Option.getD_some]
  simp only [traverseBranch_overlapNhi wf.layout hgetv, Option.bind_eq_bind, Option.bind_some,
    putRule_self hrule, ← flags]

/-- In a trie that nothing covers, a next hop that is not there is taken out. -/
theorem deleteEntry_trie (h : Holds w T s e) (hs : s.length = INITIAL_BITS)
    (hle : coverLength T s ≤ cidr) (hchild : e.hasChild = true) (hzero : coverLength T s = 0)
    (nhiNear : Nhi) :
    deleteEntry α e m cidr (coverLength T s) nhiNear d = (do
      let (node, m, ret, calls) ← deletePrefix m e.node (IpAddr.zero : α) 0 d
      if ¬ ret then some (⟨INIT_HAS_A_CHILD, node⟩, m, false, calls)
      else some (InitNode.setPtr ⟨0, node⟩ 0, m, false, calls)) := by
  have hk : coverLength T s ≤ INITIAL_BITS := hs ▸ coverLength_le T s
  rw [deleteEntry, hchild, h.u8_prefixHi hk, if_pos rfl, if_neg (not_lt.mpr hle), if_pos hzero]
  rfl

/-- **An entry stays as it is**, if its trie is not covered and has no next hops in its
root, and if there is no callback. -/
theorem deleteEntry_eq_self (h : Holds w T s e) (hs : s.length = INITIAL_BITS)
    (hnil : T [] = none) (hle : coverLength T s ≤ cidr)
    (hbare : coverLength T s = 0 → e.hasChild = true → e.node.internal = 0) :
    deleteEntry α e m cidr (coverLength T s) ((lpm T s).getD 0) false =
      some (e, m, false, []) := by
  cases hchild : e.hasChild with
  | false =>
      rw [deleteEntry_pointer h hs hnil hle hchild]
      rfl
  | true =>
      by_cases hzero : coverLength T s = 0
      · have hk : coverLength T s ≤ INITIAL_BITS := hs ▸ coverLength_le T s
        obtain ⟨flags, wf, -, full⟩ := h.of_hasChild hk hchild
        have hflags : e.flags = INIT_HAS_A_CHILD := by
          rw [flags, hzero]
          decide
        have hdel := deletePrefix_of_endsBare wf
          (.leaf (by decide) (hbare hzero hchild)) (spells_zero (α := α)) m
        rw [List.length_nil] at hdel
        rw [deleteEntry_trie h hs hle hchild hzero]
        simp only [hdel, full, ← hflags, Option.bind_eq_bind, Option.bind_some]
        rfl
      · obtain ⟨v, hv⟩ := exists_lpm_of_coverLength_ne_zero hzero
        rw [deleteEntry_cover h hs hle hchild hzero hv]
        rfl

/-- **A trie that stays as it is** has no next hops in its root, if it is not covered. -/
theorem bare_of_deleteEntry (h : Holds w T s e) (hs : s.length = INITIAL_BITS)
    (hle : coverLength T s ≤ cidr) (hchild : e.hasChild = true) (hzero : coverLength T s = 0)
    {nhiNear : Nhi}
    (hdel : deleteEntry α e m cidr (coverLength T s) nhiNear d = some (e, m', d', calls)) :
    e.node.internal = 0 := by
  have hk : coverLength T s ≤ INITIAL_BITS := hs ▸ coverLength_le T s
  obtain ⟨-, wf, -, -⟩ := h.of_hasChild hk hchild
  rw [deleteEntry_trie h hs hle hchild hzero] at hdel
  obtain ⟨⟨node, m₁, ret, calls'⟩, hdel, hrest⟩ := Option.bind_eq_some_iff.mp hdel
  dsimp only at hrest
  split at hrest
  · have hnode : node = e.node :=
      congrArg InitNode.node (Prod.mk.inj (Option.some.inj hrest)).1
    rw [hnode] at hdel
    have hends := endsBare_of_deletePrefix wf (spells_zero (α := α)) (s := []) hdel
    exact (endsBare_iff_of_lt (by decide)).mp hends
  · have he : InitNode.setPtr ⟨0, node⟩ 0 = e := (Prod.mk.inj (Option.some.inj hrest)).1
    have hnone : (InitNode.setPtr ⟨0, node⟩ 0).hasChild = false :=
      hasChild_pointer (Nat.zero_le _) prefixFlags_zero.symm
    rw [← he, hnone] at hchild
    cases hchild

/-- **What an entry gives to the callback** is stored, or the `NULL` of an entry that
nothing covers. -/
theorem handed_of_deleteEntry (h : Holds w T s e) (hs : s.length = INITIAL_BITS)
    (hnil : T [] = none) (hle : coverLength T s ≤ cidr)
    (hdel : deleteEntry α e m cidr (coverLength T s) ((lpm T s).getD 0) true =
      some (e', m', d', calls)) :
    (coverLength T s = 0 ∧ e.hasChild = false ∧ calls = [0]) ∨
      ∃ v q, calls = [v] ∧ T q = some v := by
  cases hchild : e.hasChild with
  | false =>
      rw [deleteEntry_pointer h hs hnil hle hchild] at hdel
      cases hdel
      by_cases hzero : coverLength T s = 0
      · refine .inl ⟨hzero, rfl, ?_⟩
        rw [lpm_of_coverLength_eq_zero hnil hzero]
        rfl
      · obtain ⟨v, hv⟩ := exists_lpm_of_coverLength_ne_zero hzero
        obtain ⟨q, hq⟩ := exists_of_lpm hv
        exact .inr ⟨v, q, by rw [hv]; rfl, hq⟩
  | true =>
      right
      by_cases hzero : coverLength T s = 0
      · have hk : coverLength T s ≤ INITIAL_BITS := hs ▸ coverLength_le T s
        rw [deleteEntry_trie h hs hle hchild hzero] at hdel
        obtain ⟨⟨node, m₁, ret, calls'⟩, hdel, hrest⟩ := Option.bind_eq_some_iff.mp hdel
        have hcalls : calls' = calls := by
          dsimp only at hrest
          split at hrest <;> cases hrest <;> rfl
        obtain ⟨-, wf, get, -⟩ := h.of_hasChild hk hchild
        obtain ⟨v, u, hv, hu⟩ :=
          exists_get_of_deletePrefix wf (spells_zero (α := α)) (s := []) hdel
        obtain ⟨q, hq⟩ := exists_of_pushed (get ▸ hu)
        exact ⟨v, q, hcalls ▸ hv, hq⟩
      · obtain ⟨v, hv⟩ := exists_lpm_of_coverLength_ne_zero hzero
        obtain ⟨q, hq⟩ := exists_of_lpm hv
        rw [deleteEntry_cover h hs hle hchild hzero hv] at hdel
        cases hdel
        exact ⟨v, q, rfl, hq⟩

variable {u : List Bool} {upAux : MbNode} {ip : α}

/-- The entry of a longer prefix stays as it is, if it has no trie or the walk in it ends at
a node without next hops. -/
theorem deleteChild_eq_self (h : Holds w T s e) (hs : s.length = INITIAL_BITS)
    (hip : Spells ip (s ++ u))
    (hends : e.hasChild = true → d = false ∧ EndsBare e.node u) :
    deleteChild e m upAux ip (s ++ u).length d = some (e, m, []) := by
  have hk : coverLength T s ≤ INITIAL_BITS := hs ▸ coverLength_le T s
  obtain ⟨hip', hlen⟩ := spells_lshift_INITIAL_BITS hs hip
  rw [deleteChild, hlen]
  cases hchild : e.hasChild with
  | false => rw [if_neg (by decide)]
  | true =>
      obtain ⟨-, wf, -, full⟩ := h.of_hasChild hk hchild
      obtain ⟨rfl, hbare⟩ := hends hchild
      have hdel := deletePrefix_of_endsBare wf hbare hip' m
      rw [if_pos rfl]
      simp only [hdel, full, Option.bind_eq_bind, Option.bind_some]
      rfl

/-- If it stays as it is and has a trie, then the walk ends there, and a callback is given
what is stored. -/
theorem misses_of_deleteChild (h : Holds w T s e) (hs : s.length = INITIAL_BITS)
    (hnil : T [] = none) (haux : upAux.Wf (IpAddr.LENGTH α)) (hget : upAux.get = T)
    (hip : Spells ip (s ++ u)) (hchild : e.hasChild = true)
    (hdel : deleteChild e m upAux ip (s ++ u).length d = some (e, m', calls)) :
    EndsBare e.node u ∧ (d = true → ∃ v q, calls = [v] ∧ T q = some v) := by
  have hk : coverLength T s ≤ INITIAL_BITS := hs ▸ coverLength_le T s
  obtain ⟨hip', hlen⟩ := spells_lshift_INITIAL_BITS hs hip
  have hnear := detectOverlapGeneric_near haux (by rw [hget, hnil]) hip INITIAL_BITS
  obtain ⟨-, wf, get, -⟩ := h.of_hasChild hk hchild
  rw [deleteChild, hlen, hchild, if_pos rfl] at hdel
  obtain ⟨⟨node, m₁, ret, calls'⟩, hwalk, hrest⟩ := Option.bind_eq_some_iff.mp hdel
  cases ret with
  | true =>
      -- the entry would not have a trie any more
      have hnone : ∀ near ≤ INITIAL_BITS, ∀ v : Nhi,
          (InitNode.setPtr ⟨prefixFlags near, node⟩ v).hasChild = false :=
        fun near hle v => hasChild_pointer hle rfl
      have hle : coverLength upAux.get
          ((s ++ u).take (min (s ++ u).length INITIAL_BITS - 1)) ≤ INITIAL_BITS := by
        refine (coverLength_le _ _).trans ?_
        rw [List.length_take]
        omega
      simp only [if_true, hnear, Option.bind_eq_bind, Option.bind_some] at hrest
      split at hrest
      · have he := (Prod.mk.inj (Option.some.inj hrest)).1
        rw [← he, ← prefixFlags_zero, hnone 0 (Nat.zero_le _)] at hchild
        cases hchild
      · have he := (Prod.mk.inj (Option.some.inj hrest)).1
        rw [← he, hnone _ hle] at hchild
        cases hchild
  | false =>
      obtain ⟨he, hrest⟩ := Prod.mk.inj (Option.some.inj hrest)
      obtain ⟨-, rfl⟩ := Prod.mk.inj hrest
      have hnode : node = e.node := congrArg InitNode.node he
      rw [hnode] at hwalk
      refine ⟨endsBare_of_deletePrefix wf hip' hwalk, fun hd => ?_⟩
      obtain ⟨v, a, hv, ha⟩ := exists_get_of_deletePrefix wf hip' (hd ▸ hwalk)
      obtain ⟨q, hq⟩ := exists_of_pushed (get ▸ ha)
      exact ⟨v, q, hv, hq⟩

end Entry

/-! ## The engine -/

section Engine

variable {α : Type} [IpAddr α]

/-- An entry that `tbm_delete_prefix` does not skip. -/
def TbmTrie.Opens (trie : TbmTrie) (p : Prefix α) (x : Fin (2 ^ INITIAL_BITS)) : Prop :=
  p.Covers x ∧ (trie.init x).prefixHi ≤ p.cidr

/-- What a delete of a prefix of up to 13 bits has to find in the entries that it does not
skip, if they do not hold the prefix: no next hop in the root of a trie that nothing covers,
and for a callback a `NULL` pointer, in the first of them. -/
structure TbmTrie.MissesEntries (trie : TbmTrie) (p : Prefix α) (destroyNhi : Bool) : Prop where
  roots : ∀ x, trie.Opens p x → (trie.init x).prefixHi = 0 → (trie.init x).hasChild = true →
    (trie.init x).node.internal = 0
  first : destroyNhi = true → ∀ x, trie.Opens p x → (∀ y < x, ¬ trie.Opens p y) →
    (trie.init x).prefixHi = 0 ∧ (trie.init x).hasChild = false ∧ 0 ∉ trie.upAux.nhis 0

/-- A delete finds nothing: neither in the entries, nor in the trie of its entry if the
prefix is a longer one, nor in `up_aux`. -/
structure TbmTrie.Misses (trie : TbmTrie) (p : Prefix α) (destroyNhi : Bool) : Prop where
  short : p.cidr ≤ INITIAL_BITS → trie.MissesEntries p destroyNhi
  long : INITIAL_BITS < p.cidr → ∀ x, initIndex (indexOf p.ip) = some x →
    (trie.init x).hasChild = true →
      destroyNhi = false ∧ EndsBare (trie.init x).node (p.bits.drop INITIAL_BITS)
  aux : EndsBare trie.upAux p.bits

variable {trie : TbmTrie} {p : Prefix α} {d : Bool} {x : Fin (2 ^ INITIAL_BITS)}

/-- Every entry before the `i`-th one is skipped. -/
def SkippedBelow (trie : TbmTrie) (p : Prefix α) (i : ℕ) : Prop :=
  ∀ y : Fin (2 ^ INITIAL_BITS),
    (y : ℕ) < value p.bits * 2 ^ (INITIAL_BITS - p.bits.length) + i → ¬ trie.Opens p y

theorem skippedBelow_zero (hshort : p.cidr ≤ INITIAL_BITS) : SkippedBelow trie p 0 := by
  intro y hy hopen
  have hle := ((prefix_indexBits_iff (p.length_bits ▸ hshort) y).mp
    (Prefix.covers_iff.mp hopen.1)).1
  omega

theorem SkippedBelow.succ {i : ℕ} (h : SkippedBelow trie p i)
    (hx : (x : ℕ) = value p.bits * 2 ^ (INITIAL_BITS - p.bits.length) + i)
    (hnot : ¬ trie.Opens p x) : SkippedBelow trie p (i + 1) := by
  intro y hy
  by_cases hyx : y = x
  · exact hyx ▸ hnot
  · have : (y : ℕ) ≠ x := fun h => hyx (Fin.ext h)
    exact h y (by omega)

variable [DecidableEq α] {T : Stored α}

theorem Pushes.prefixHi (h : Pushes trie T) (x : Fin (2 ^ INITIAL_BITS)) :
    (trie.init x).prefixHi = coverLength T.table (indexBits x) :=
  (h.entries x).prefixHi (coverLength_indexBits_le T.table x)

/-- Under a prefix that is not stored, an entry that is not skipped is covered by the
nearest shorter prefix. -/
theorem Pushes.longest_of_opens (h : Pushes trie T) (hp : p ∉ T) (hx : trie.Opens p x) :
    longest T.table (indexBits x) = longest T.table p.bits.dropLast := by
  have hle : coverLength T.table (indexBits x) ≤ p.cidr := h.prefixHi x ▸ hx.2
  have hnone : T.table p.bits = none := (table_bits p).trans (Finmap.lookup_eq_none.mpr hp)
  refine longest_eq_longest_dropLast (Prefix.covers_iff.mp hx.1) hnone fun q v hq => ?_
  rw [coverLength, hq] at hle
  exact p.length_bits ▸ hle

theorem setEntry_self (trie : TbmTrie) (x : Fin (2 ^ INITIAL_BITS)) :
    trie.setEntry x (trie.init x) trie.m = trie := by
  rw [TbmTrie.setEntry, Function.update_eq_self]

theorem mem_values_of_table {s : List Bool} {v : Nhi} (h : T.table s = some v) : v ∈ T.values := by
  obtain ⟨q, -, hq⟩ := exists_prefix_of_table h
  rw [values_erase hq]
  exact Multiset.mem_cons_self v _

theorem coverLength_of_opens (h : Pushes trie T) (hp : p ∉ T) (hx : trie.Opens p x) :
    coverLength T.table p.bits.dropLast = coverLength T.table (indexBits x) := by
  rw [coverLength, coverLength, h.longest_of_opens hp hx]

theorem lpm_of_opens (h : Pushes trie T) (hp : p ∉ T) (hx : trie.Opens p x) :
    lpm T.table p.bits.dropLast = lpm T.table (indexBits x) := by
  rw [lpm, lpm, h.longest_of_opens hp hx]

/-- After `i` entries the loop has left the engine alone.  The callback is still there only
if every entry was skipped. -/
structure LeftAlone (trie : TbmTrie) (T : Stored α) (p : Prefix α) (d : Bool) (i : ℕ)
    (st : TbmTrie × Bool × List Nhi) : Prop where
  same : st.1 = trie
  callback : st.2.1 = true → d = true ∧ SkippedBelow trie p i
  calls : ∀ v ∈ st.2.2, v ∉ T.values

/-- One round of a loop that finds nothing. -/
theorem LeftAlone.step (h : Pushes trie T) (hp : p ∉ T) (hmiss : trie.MissesEntries p d) {i : ℕ}
    {d' : Bool} {calls : List Nhi} (hst : LeftAlone trie T p d i (trie, d', calls))
    (hx : (x : ℕ) = value p.bits * 2 ^ (INITIAL_BITS - p.bits.length) + i)
    (hcov : p.Covers x) :
    ∃ d'' more, deleteEntry α (trie.init x) trie.m p.cidr (coverLength T.table p.bits.dropLast)
        ((lpm T.table p.bits.dropLast).getD 0) d' = some (trie.init x, trie.m, d'', more) ∧
      LeftAlone trie T p d (i + 1) (trie, d'', calls ++ more) := by
  have hhi := h.prefixHi x
  by_cases hopen : trie.Opens p x
  · have hle : coverLength T.table (indexBits x) ≤ p.cidr := hhi ▸ hopen.2
    rw [coverLength_of_opens h hp hopen, lpm_of_opens h hp hopen]
    cases d' with
    | false =>
        refine ⟨false, [], ?_, rfl, fun h => absurd h Bool.false_ne_true, ?_⟩
        · exact deleteEntry_eq_self (h.entries x) (length_indexBits x) h.table_nil hle
            fun hzero => hmiss.roots x hopen (hhi.trans hzero)
        · rw [List.append_nil]
          exact hst.calls
    | true =>
        obtain ⟨hd, hskip⟩ := hst.callback rfl
        obtain ⟨hzero, hchild, hnull⟩ :=
          hmiss.first hd x hopen fun y hy => hskip y (hx ▸ hy)
        rw [h.aux.nhis] at hnull
        refine ⟨false, [0], ?_, rfl, fun h => absurd h Bool.false_ne_true, fun v hv => ?_⟩
        · rw [deleteEntry_pointer (h.entries x) (length_indexBits x) h.table_nil hle hchild,
            lpm_of_coverLength_eq_zero h.table_nil (hhi.symm.trans hzero)]
          rfl
        · rcases List.mem_append.mp hv with hv | hv
          · exact hst.calls v hv
          · rw [List.mem_singleton.mp hv]
            exact hnull
  · have hlt : p.cidr < coverLength T.table (indexBits x) := by
      rw [← hhi]
      exact not_le.mp fun hle => hopen ⟨hcov, hle⟩
    refine ⟨d', [], ?_, rfl, fun hd => ?_, ?_⟩
    · exact deleteEntry_of_lt (h.entries x) (length_indexBits x) hlt _ _
    · exact ⟨(hst.callback hd).1, (hst.callback hd).2.succ hx hopen⟩
    · rw [List.append_nil]
      exact hst.calls

/-- The loop of a delete that finds nothing. -/
theorem deleteSweep_of_misses (h : Pushes trie T) (hshort : p.cidr ≤ INITIAL_BITS) (hp : p ∉ T)
    (hmiss : trie.MissesEntries p d) :
    ∃ st, deleteSweep trie p.ip p.cidr (coverLength T.table p.bits.dropLast)
        ((lpm T.table p.bits.dropLast).getD 0) d = some st ∧
      LeftAlone trie T p d (2 ^ (INITIAL_BITS - p.bits.length)) st := by
  have hlen : p.bits.length ≤ INITIAL_BITS := p.length_bits ▸ hshort
  have hcidr := p.length_bits
  rw [deleteSweep, Nat.one_shiftLeft, ← hcidr]
  refine Run.foldlM_range (LeftAlone trie T p d)
    ⟨rfl, fun hd => ⟨hd, skippedBelow_zero hshort⟩, by simp⟩ fun i st hi hst => ?_
  obtain ⟨t, d', calls⟩ := st
  obtain rfl : t = trie := hst.same
  obtain ⟨x, hindex, hx, hpre⟩ := exists_initIndex_add hlen hi
  obtain ⟨d'', more, hdel, hst'⟩ := hst.step h hp hmiss hx (Prefix.covers_iff.mpr hpre)
  refine ⟨(t, d'', calls ++ more), ?_, hst'⟩
  rw [p.spells.indexOf_eq hlen, hindex, hcidr]
  simp only [hdel, Option.bind_eq_bind, Option.bind_some, setEntry_self]

/-- What the loop did at each of the first `i` entries. -/
structure Inspected (trie : TbmTrie) (p : Prefix α) (near : ℕ) (nhiNear : Nhi) (d : Bool) (i : ℕ)
    (st : TbmTrie × Bool × List Nhi) : Prop where
  aux : st.1.upAux = trie.upAux
  done : ∀ y : Fin (2 ^ INITIAL_BITS), p.Covers y →
    (y : ℕ) < value p.bits * 2 ^ (INITIAL_BITS - p.bits.length) + i →
    ∃ m d₁ m' d₂ more, deleteEntry α (trie.init y) m p.cidr near nhiNear d₁ =
        some (st.1.init y, m', d₂, more) ∧
      (∀ v ∈ more, v ∈ st.2.2) ∧ (d = true → (∀ z < y, ¬ trie.Opens p z) → d₁ = true)
  rest : ∀ y : Fin (2 ^ INITIAL_BITS),
    value p.bits * 2 ^ (INITIAL_BITS - p.bits.length) + i ≤ y → st.1.init y = trie.init y
  callback : d = true → SkippedBelow trie p i → st.2.1 = true

/-- One round of the loop. -/
theorem Inspected.step (h : Pushes trie T) {near i : ℕ} {nhiNear : Nhi} {t : TbmTrie}
    {d' d'' : Bool} {calls more : List Nhi} {e : InitNode} {m : Mm}
    (hst : Inspected trie p near nhiNear d i (t, d', calls))
    (hx : (x : ℕ) = value p.bits * 2 ^ (INITIAL_BITS - p.bits.length) + i) (hcov : p.Covers x)
    (hdel : deleteEntry α (t.init x) t.m p.cidr near nhiNear d' = some (e, m, d'', more)) :
    Inspected trie p near nhiNear d (i + 1) (t.setEntry x e m, d'', calls ++ more) := by
  have hinit : t.init x = trie.init x := hst.rest x hx.ge
  rw [hinit] at hdel
  refine ⟨hst.aux, fun y hy hlt => ?_, fun y hy => ?_, fun hd hskip => ?_⟩
  · by_cases hyx : y = x
    · subst hyx
      refine ⟨t.m, d', m, d'', more, ?_, fun v hv => List.mem_append_right _ hv, fun hd hskip => ?_⟩
      · rw [init_setEntry, Function.update_self]
        exact hdel
      · exact hst.callback hd fun z hz => hskip z (Fin.lt_def.mpr (by omega))
    · have hne : (y : ℕ) ≠ x := fun heq => hyx (Fin.ext heq)
      obtain ⟨m₁, d₁, m₂, d₂, more₁, hdone, hsub, hfirst⟩ := hst.done y hy (by omega)
      refine ⟨m₁, d₁, m₂, d₂, more₁, ?_, fun v hv => List.mem_append_left _ (hsub v hv), hfirst⟩
      rw [init_setEntry, Function.update_of_ne hyx]
      exact hdone
  · have hyx : y ≠ x := by
      intro heq
      rw [heq] at hy
      omega
    rw [init_setEntry, Function.update_of_ne hyx]
    exact hst.rest y (by omega)
  · have hlt : p.cidr < coverLength T.table (indexBits x) := by
      rw [← h.prefixHi x]
      exact not_le.mp fun hle => hskip x (by omega) ⟨hcov, hle⟩
    rw [deleteEntry_of_lt (h.entries x) (length_indexBits x) hlt] at hdel
    obtain ⟨-, -, rfl, -⟩ : trie.init x = e ∧ t.m = m ∧ d' = d'' ∧ [] = more := by
      simpa using hdel
    exact hst.callback hd fun z hz => hskip z (by omega)

theorem inspected_of_deleteSweep (h : Pushes trie T) (hshort : p.cidr ≤ INITIAL_BITS) {near : ℕ}
    {nhiNear : Nhi} {st : TbmTrie × Bool × List Nhi}
    (hdel : deleteSweep trie p.ip p.cidr near nhiNear d = some st) :
    Inspected trie p near nhiNear d (2 ^ (INITIAL_BITS - p.bits.length)) st := by
  have hlen : p.bits.length ≤ INITIAL_BITS := p.length_bits ▸ hshort
  rw [deleteSweep, Nat.one_shiftLeft, ← p.length_bits] at hdel
  refine Run.foldlM_range_of_eq_some (Inspected trie p near nhiNear d)
    ⟨rfl, fun y hy hlt => ?_, fun _ _ => rfl, fun hd _ => hd⟩
    (fun i st st' hi hst hround => ?_) hdel
  · exact absurd ((prefix_indexBits_iff hlen y).mp (Prefix.covers_iff.mp hy)).1 (by omega)
  · obtain ⟨t, d', calls⟩ := st
    obtain ⟨x, hindex, hx, hpre⟩ := exists_initIndex_add hlen hi
    rw [p.spells.indexOf_eq hlen, hindex, p.length_bits] at hround
    simp only [Option.bind_eq_bind, Option.bind_some] at hround
    obtain ⟨⟨e, m, d'', more⟩, hentry, hround⟩ := Option.bind_eq_some_iff.mp hround
    cases hround
    exact hst.step h hx (Prefix.covers_iff.mpr hpre) hentry

/-- An entry that is not skipped has been looked at, as one that the nearest shorter prefix
covers. -/
theorem Inspected.opens (h : Pushes trie T) (hp : p ∉ T) {st : TbmTrie × Bool × List Nhi}
    (hst : Inspected trie p (coverLength T.table p.bits.dropLast)
      ((lpm T.table p.bits.dropLast).getD 0) d (2 ^ (INITIAL_BITS - p.bits.length)) st)
    (hx : trie.Opens p x) :
    ∃ m d₁ m' d₂ more, deleteEntry α (trie.init x) m p.cidr (coverLength T.table (indexBits x))
        ((lpm T.table (indexBits x)).getD 0) d₁ = some (st.1.init x, m', d₂, more) ∧
      (∀ v ∈ more, v ∈ st.2.2) ∧ (d = true → (∀ z < x, ¬ trie.Opens p z) → d₁ = true) := by
  have hpre := Prefix.covers_iff.mp hx.1
  have hlen : p.bits.length ≤ INITIAL_BITS := p.length_bits ▸ hx.1.1
  have hlt := ((prefix_indexBits_iff hlen x).mp hpre).2
  rw [← coverLength_of_opens h hp hx, ← lpm_of_opens h hp hx]
  exact hst.done x hx.1 hlt

/-- If nothing stored is given to the callback, then there is none, or the first entry that
is not skipped is a `NULL` pointer. -/
theorem first_of_deleteSweep (h : Pushes trie T) (hshort : p.cidr ≤ INITIAL_BITS) (hp : p ∉ T)
    {st : TbmTrie × Bool × List Nhi}
    (hdel : deleteSweep trie p.ip p.cidr (coverLength T.table p.bits.dropLast)
      ((lpm T.table p.bits.dropLast).getD 0) d = some st)
    (hcalls : ∀ v ∈ st.2.2, v ∉ T.values) (hd : d = true) (hx : trie.Opens p x)
    (hfirst : ∀ y < x, ¬ trie.Opens p y) :
    (trie.init x).prefixHi = 0 ∧ (trie.init x).hasChild = false ∧ 0 ∉ trie.upAux.nhis 0 := by
  have hle : coverLength T.table (indexBits x) ≤ p.cidr := h.prefixHi x ▸ hx.2
  obtain ⟨m, d₁, m', d₂, more, hentry, hsub, hd₁⟩ :=
    (inspected_of_deleteSweep h hshort hdel).opens h hp hx
  obtain rfl := hd₁ hd hfirst
  rcases handed_of_deleteEntry (h.entries x) (length_indexBits x) h.table_nil hle hentry with
    ⟨hzero, hchild, rfl⟩ | ⟨v, q, rfl, hq⟩
  · rw [h.aux.nhis, h.prefixHi x]
    exact ⟨hzero, hchild, hcalls 0 (hsub 0 (List.mem_singleton.mpr rfl))⟩
  · exact absurd (mem_values_of_table hq) (hcalls v (hsub v (List.mem_singleton.mpr rfl)))

/-- `tbm_delete_prefix` of a prefix of up to 13 bits. -/
theorem tbmDelete_of_le (h : Pushes trie T) (hpos : 1 ≤ p.cidr) (hshort : p.cidr ≤ INITIAL_BITS)
    (d : Bool) :
    tbmDelete trie p.ip p.cidr d =
      (deleteSweep trie p.ip p.cidr (coverLength T.table p.bits.dropLast)
        ((lpm T.table p.bits.dropLast).getD 0) d).bind fun st =>
          (deletePrefix st.1.upM st.1.upAux p.ip p.cidr false).bind fun up =>
            some ({ st.1 with upAux := up.1, upM := up.2.1 }, 0, st.2.2) := by
  rw [tbmDelete, if_neg (by omega), if_pos hshort, h.detectOverlap_eq hshort]
  simp only [Option.bind_eq_bind, Option.bind_some]
  cases deleteSweep trie p.ip p.cidr (coverLength T.table p.bits.dropLast)
    ((lpm T.table p.bits.dropLast).getD 0) d <;> rfl

/-- **A delete that finds nothing leaves the engine alone**, and gives nothing away. -/
theorem tbmDelete_of_misses (h : Pushes trie T) (hpos : 1 ≤ p.cidr) (hp : p ∉ T)
    (hmiss : trie.Misses p d) :
    ∃ calls, tbmDelete trie p.ip p.cidr d = some (trie, 0, calls) ∧ ∀ v ∈ calls, v ∉ T.values := by
  have haux := deletePrefix_of_endsBare h.aux.wf hmiss.aux p.spells trie.upM
  rw [p.length_bits] at haux
  by_cases hshort : p.cidr ≤ INITIAL_BITS
  · obtain ⟨⟨t, d', calls⟩, hsweep, hst⟩ :=
      deleteSweep_of_misses h hshort hp (hmiss.short hshort)
    obtain rfl : t = trie := hst.same
    refine ⟨calls, ?_, hst.calls⟩
    rw [tbmDelete_of_le h hpos hshort, hsweep, Option.bind_some, haux]
    rfl
  · obtain ⟨x, u, hindex, hsplit, hu, huw⟩ := exists_entry (not_le.mp hshort)
    have hdrop : p.bits.drop INITIAL_BITS = u := by
      rw [hsplit, ← length_indexBits x, List.drop_left]
    have hchild : deleteChild (trie.init x) trie.m trie.upAux p.ip p.bits.length d =
        some (trie.init x, trie.m, []) := by
      rw [hsplit]
      exact deleteChild_eq_self (h.entries x) (length_indexBits x) (hsplit ▸ p.spells)
        fun hchild => hdrop ▸ hmiss.long (not_le.mp hshort) x hindex hchild
    rw [p.length_bits] at hchild
    refine ⟨[], ?_, by simp⟩
    rw [tbmDelete, if_neg (by omega), if_neg hshort, hindex]
    simp only [hchild, setEntry_self, haux, Option.bind_eq_bind, Option.bind_some]

/-- **No other delete does.** -/
theorem misses_of_tbmDelete (h : Pushes trie T) (hpos : 1 ≤ p.cidr) (hp : p ∉ T) {ret : ℤ}
    {calls : List Nhi} (hdel : tbmDelete trie p.ip p.cidr d = some (trie, ret, calls))
    (hcalls : ∀ v ∈ calls, v ∉ T.values) : trie.Misses p d := by
  by_cases hshort : p.cidr ≤ INITIAL_BITS
  · rw [tbmDelete_of_le h hpos hshort] at hdel
    obtain ⟨⟨t, d', calls'⟩, hsweep, hdel⟩ := Option.bind_eq_some_iff.mp hdel
    obtain ⟨⟨upAux, upM, ret', none⟩, haux, hdel⟩ := Option.bind_eq_some_iff.mp hdel
    obtain ⟨htrie, hrest⟩ := Prod.mk.inj (Option.some.inj hdel)
    obtain ⟨-, rfl⟩ := Prod.mk.inj hrest
    have hst := inspected_of_deleteSweep h hshort hsweep
    have hinit : t.init = trie.init := (congrArg TbmTrie.init htrie :)
    have hup : upAux = trie.upAux := (congrArg TbmTrie.upAux htrie :)
    rw [hst.aux, hup, ← p.length_bits] at haux
    refine ⟨fun _ => ⟨fun x hx hzero hchild => ?_, fun hd x hx hfirst => ?_⟩,
      fun hlong => absurd hlong (not_lt.mpr hshort),
      endsBare_of_deletePrefix h.aux.wf p.spells haux⟩
    · obtain ⟨m, d₁, m', d₂, more, hentry, -⟩ := hst.opens h hp hx
      rw [hinit] at hentry
      exact bare_of_deleteEntry (h.entries x) (length_indexBits x) (h.prefixHi x ▸ hx.2) hchild
        ((h.prefixHi x).symm.trans hzero) hentry
    · exact first_of_deleteSweep h hshort hp hsweep hcalls hd hx hfirst
  · obtain ⟨x, u, hindex, hsplit, hu, huw⟩ := exists_entry (not_le.mp hshort)
    have hdrop : p.bits.drop INITIAL_BITS = u := by
      rw [hsplit, ← length_indexBits x, List.drop_left]
    rw [tbmDelete, if_neg (by omega), if_neg hshort, hindex] at hdel
    simp only [Option.bind_eq_bind, Option.bind_some] at hdel
    obtain ⟨⟨t, calls'⟩, hround, hdel⟩ := Option.bind_eq_some_iff.mp hdel
    obtain ⟨⟨e, m, calls''⟩, hchild, ht⟩ := Option.bind_eq_some_iff.mp hround
    cases ht
    obtain ⟨⟨upAux, upM, ret', none⟩, haux, hdel⟩ := Option.bind_eq_some_iff.mp hdel
    obtain ⟨htrie, hrest⟩ := Prod.mk.inj (Option.some.inj hdel)
    obtain ⟨-, rfl⟩ := Prod.mk.inj hrest
    have hinit : Function.update trie.init x e = trie.init := (congrArg TbmTrie.init htrie :)
    have he : e = trie.init x := by rw [← hinit, Function.update_self]
    have hup : upAux = trie.upAux := (congrArg TbmTrie.upAux htrie :)
    have haux' : deletePrefix trie.upM trie.upAux p.ip p.cidr false =
        some (upAux, upM, ret', none) := haux
    rw [hup, ← p.length_bits] at haux'
    refine ⟨fun hle => absurd hle hshort, fun _ y hy hhas => ?_,
      endsBare_of_deletePrefix h.aux.wf p.spells haux'⟩
    obtain rfl : x = y := Option.some.inj (hindex.symm.trans hy)
    rw [he, ← p.length_bits, hsplit] at hchild
    obtain ⟨hends, hhanded⟩ := misses_of_deleteChild (h.entries x) (length_indexBits x)
      h.table_nil h.aux.wf h.aux.get (hsplit ▸ p.spells) hhas hchild
    refine ⟨?_, hdrop ▸ hends⟩
    by_contra hd
    obtain ⟨v, q, rfl, hq⟩ := hhanded (Bool.not_eq_false _ ▸ hd)
    exact hcalls v (List.mem_singleton.mpr rfl) (mem_values_of_table hq)

end Engine

/-! ## Runs -/

/-- The map under updates of an engine, whose callers delete whatever they like. -/
def callerMachine (α : Type) [IpAddr α] [DecidableEq α] : Run.Machine (Stored α) (Op α) where
  legal _ op := 1 ≤ op.prefix.cidr
  step := (storedMachine α).step

/-- A delete of a prefix that `tbm_prefix_exist` does not know finds nothing. -/
def Heeds (trie : TbmTrie) : Op IpV4 → Prop
  | .insert _ _ => True
  | .delete p destroyNhi => tbmPrefixExist trie p.ip p.cidr = some 0 → trie.Misses p destroyNhi

/-- A delete changes nothing that can be seen: no fault, every search and every
`tbm_prefix_exist` as before, and no stored next hop given to `destroy_nhi`. -/
def ChangesNothing (trie : TbmTrie) (T : Stored IpV4) (p : Prefix IpV4) (destroyNhi : Bool) :
    Prop :=
  ∃ trie' ret calls, tbmDeletePrefix trie p.ip p.cidr destroyNhi = some (trie', ret, calls) ∧
    (∀ lazyMark a, tbmSearch lazyMark trie' a = tbmSearch lazyMark trie a) ∧
    (∀ q : Prefix IpV4, tbmPrefixExist trie' q.ip q.cidr = tbmPrefixExist trie q.ip q.cidr) ∧
    ∀ v ∈ calls, v ∉ T.values

theorem Mirrors.exist {α : Type} [IpAddr α] [DecidableEq α] {root : MbNode} {m : Mm}
    {T : Stored α} (h : Mirrors (root, m) T) (p : Prefix α) :
    prefixExist root p.ip p.cidr = some (if p ∈ T then 1 else 0) := by
  have hexist := prefixExist_eq h.wf p.spells
  rw [p.length_bits] at hexist
  rw [hexist]
  simp only [h.isSome_get_iff]

section Runs

variable {trie : TbmTrie} {T : Stored IpV4}

/-- `tbm_prefix_exist` knows the stored prefixes. -/
theorem tbmPrefixExist_eq (h : Pushes trie T) (p : Prefix IpV4) :
    tbmPrefixExist trie p.ip p.cidr = some (if p ∈ T then 1 else 0) :=
  h.aux.exist p

theorem erase_of_notMem {p : Prefix IpV4} (hp : p ∉ T) : T.erase p = T := by
  apply Finmap.ext_lookup
  intro q
  by_cases hq : q = p
  · rw [hq, Finmap.lookup_erase, Finmap.lookup_eq_none.mpr hp]
  · rw [Finmap.lookup_erase_ne hq]

theorem callerStep_spec (h : Pushes trie T) {op : Op IpV4}
    (hlegal : (callerMachine IpV4).legal T op) (hheeds : Heeds trie op) :
    ∃ trie', tbmStep trie op = some trie' ∧ Pushes trie' ((callerMachine IpV4).step T op) := by
  rw [tbmStep_eq]
  cases op with
  | insert p nhi => exact leafStep_spec h ⟨hlegal, trivial⟩
  | delete p d =>
      by_cases hp : p ∈ T
      · exact leafStep_spec h ⟨hlegal, hp⟩
      · have hexist : tbmPrefixExist trie p.ip p.cidr = some 0 := by
          rw [tbmPrefixExist_eq h, if_neg hp]
        have hpos : 1 ≤ p.cidr := hlegal
        obtain ⟨calls, hdel, -⟩ := tbmDelete_of_misses h hpos hp (hheeds hexist)
        refine ⟨trie, ?_, ?_⟩
        · rw [leafStep, hdel]
          rfl
        · change Pushes trie (T.erase p)
          rwa [erase_of_notMem hp]

end Runs

/-- **A delete of a prefix that is not stored changes nothing**, in every state of a run in
which all such deletes find nothing, if it finds nothing itself.  No other delete of that
kind leaves the engine as it is without giving a stored next hop away. -/
theorem tbm_run_delete_absent {ops : List (Op IpV4)} (hops : (callerMachine IpV4).Legal ∅ ops)
    (hheeds : Run.Guarded tbmStep Heeds tbmInitTrie ops) :
    ∃ trie, ops.foldlM tbmStep tbmInitTrie = some trie ∧
      ∀ p d, 1 ≤ p.cidr → p ∉ (callerMachine IpV4).exec ∅ ops →
        (trie.Misses p d → ChangesNothing trie ((callerMachine IpV4).exec ∅ ops) p d) ∧
        ((∃ ret calls, tbmDeletePrefix trie p.ip p.cidr d = some (trie, ret, calls) ∧
          ∀ v ∈ calls, v ∉ Stored.values ((callerMachine IpV4).exec ∅ ops)) ↔ trie.Misses p d) := by
  obtain ⟨trie, hrun, hpush⟩ :=
    Run.Machine.refines_guarded Heeds (fun _ _ _ h => callerStep_spec h) pushes_init hops hheeds
  refine ⟨trie, hrun, fun p d hpos hp => ⟨fun hmiss => ?_, fun h => ?_, fun hmiss => ?_⟩⟩
  · obtain ⟨calls, hdel, hcalls⟩ := tbmDelete_of_misses hpush hpos hp hmiss
    exact ⟨trie, 0, calls, hdel, fun _ _ => rfl, fun _ => rfl, hcalls⟩
  · obtain ⟨ret, calls, hdel, hcalls⟩ := h
    exact misses_of_tbmDelete hpush hpos hp hdel hcalls
  · obtain ⟨calls, hdel, hcalls⟩ := tbmDelete_of_misses hpush hpos hp hmiss
    exact ⟨0, calls, hdel, hcalls⟩

/-- `8.0.0.0/5`. -/
def eightSlash5 : Prefix IpV4 := ⟨0x08000000#32, 5, by decide, by decide⟩

theorem covers_eightSlash5 (x : Fin (2 ^ INITIAL_BITS)) :
    eightSlash5.Covers x ↔ 256 ≤ (x : ℕ) ∧ (x : ℕ) < 512 := by
  have hvalue : value eightSlash5.bits = 1 := by decide
  rw [Prefix.covers_iff, prefix_indexBits_iff (by decide), hvalue, eightSlash5.length_bits]
  exact Iff.rfl

/-- Below `8.0.0.0/5` there is the trie of `10.0.0.0/24`, with a bare root. -/
theorem misses_eightSlash5 {trie : TbmTrie}
    (h : tbmStep tbmInitTrie (.insert tenSlash24 2) = some trie) :
    trie.Misses eightSlash5 true := by
  have hstate : (tbmStep tbmInitTrie (.insert tenSlash24 2)).all fun trie =>
      decide (trie.upAux.internal = 0 ∧ 0 ∉ trie.upAux.nhis 0 ∧
        (trie.init 256).prefixHi = 0 ∧ (trie.init 256).hasChild = false ∧
        ∀ y : Fin 256, (trie.init (Fin.ofNat _ (256 + y))).node.internal = 0) := by
    decide +kernel
  rw [h, Option.all_some, decide_eq_true_eq] at hstate
  obtain ⟨haux, hnull, hlow, hchild, hroots⟩ := hstate
  refine ⟨fun _ => ⟨fun x hopen _ _ => ?_, fun _ x hopen hfirst => ?_⟩, fun hlong => ?_,
    .leaf (by decide) haux⟩
  · obtain ⟨hge, hlt⟩ := (covers_eightSlash5 x).mp hopen.1
    have hx : Fin.ofNat (2 ^ INITIAL_BITS) (256 + (x.val - 256)) = x := by
      apply Fin.ext
      rw [Fin.val_ofNat, Nat.add_sub_cancel' hge, Nat.mod_eq_of_lt x.isLt]
    have hroot := hroots ⟨x - 256, by omega⟩
    rwa [hx] at hroot
  · -- the first entry that is not skipped is the first one below the prefix
    obtain rfl : x = 256 := by
      by_contra hne
      have hge : 256 ≤ x := ((covers_eightSlash5 x).mp hopen.1).1
      have hcovers := (covers_eightSlash5 256).mpr ⟨by decide, by decide⟩
      have hopen' : trie.Opens eightSlash5 256 := ⟨hcovers, hlow ▸ Nat.zero_le _⟩
      exact hfirst 256 (lt_of_le_of_ne hge (Ne.symm hne)) hopen'
    exact ⟨hlow, hchild, hnull⟩
  · exact absurd hlong (by decide)

/-- A delete of a prefix that is not stored, above one that is. -/
def missOps : List (Op IpV4) := [.insert tenSlash24 2, .delete eightSlash5 true, .insert tenSlash8 1]

theorem tbm_run_delete_absent_eightSlash5 :
    ∃ trie, missOps.foldlM tbmStep tbmInitTrie = some trie ∧
      ∀ p d, 1 ≤ p.cidr → p ∉ (callerMachine IpV4).exec ∅ missOps →
        (trie.Misses p d → ChangesNothing trie ((callerMachine IpV4).exec ∅ missOps) p d) ∧
        ((∃ ret calls, tbmDeletePrefix trie p.ip p.cidr d = some (trie, ret, calls) ∧
          ∀ v ∈ calls, v ∉ Stored.values ((callerMachine IpV4).exec ∅ missOps)) ↔
          trie.Misses p d) :=
  tbm_run_delete_absent
    ⟨(by decide : 1 ≤ tenSlash24.cidr), (by decide : 1 ≤ eightSlash5.cidr),
      (by decide : 1 ≤ tenSlash8.cidr), trivial⟩
    ⟨trivial, fun _ h => ⟨fun _ => misses_eightSlash5 h,
      fun _ _ => ⟨trivial, fun _ _ => trivial⟩⟩⟩

/-- The walk in an empty trie leaves it at once. -/
theorem deletePrefix_zero {ip : IpV4} {cidr : ℕ} (hcidr : 6 ≤ cidr) (m : Mm) (d : Bool) :
    deletePrefix m .zero ip cidr d = none := by
  have hchild : ∀ pos, MbNode.zero.child pos = none := by
    intro pos
    rw [← Option.not_isSome_iff_eq_none]
    intro hsome
    obtain ⟨c, hc⟩ := Option.isSome_iff_exists.mp hsome
    exact absurd (MbNode.child_mem hc) List.not_mem_nil
  rw [deletePrefix, deleteTrace, if_neg (by rw [STRIDE_eq]; omega)]
  simp [hchild]

/-- In an engine that holds nothing, a delete of `10.0.0.0/8` reads outside an array. -/
theorem tbm_delete_absent_tenSlash8 :
    ¬ ∀ ops, (tbmMachine IpV4).Legal ∅ ops → ∀ trie, ops.foldlM tbmStep tbmInitTrie = some trie →
      ∀ p d, 1 ≤ p.cidr → p ∉ (tbmMachine IpV4).exec ∅ ops →
        ChangesNothing trie ((tbmMachine IpV4).exec ∅ ops) p d := by
  intro h
  obtain ⟨trie', ret, calls, hdel, -⟩ :=
    h [] trivial tbmInitTrie rfl tenSlash8 false (by decide) Finmap.notMem_empty
  rw [tbmDeletePrefix, tbmDelete_of_le pushes_init (by decide) (by decide)] at hdel
  obtain ⟨st, hsweep, hdel⟩ := Option.bind_eq_some_iff.mp hdel
  have haux := (inspected_of_deleteSweep pushes_init (by decide) hsweep).aux
  have hzero : st.1.upAux = .zero := haux
  rw [hzero, deletePrefix_zero (by decide)] at hdel
  cases hdel

end TreeBitmap
