import TreeBitmap.Bounds
import TreeBitmap.Callbacks
import TreeBitmap.Queries

/-!
# The nodes that a destroy goes through

`destroy_subtrie` clears the next hops of a node before it goes to the children, and each
child is zero when the recursive call comes back.  Here the changes are made in place, and
every call is recorded with the path of its node and with what it finds there.  Nothing that
is still to be visited has been cleared before.

## Main definitions

* `destroyWalk` — `destroy_subtrie`, in place and with its visits.
* `Visits` — every node is visited once, as it was.
* `destroyWalk_spec` — **what the walk visits**, and that it does what `destroySubtrie` does.
* `tbm_run_destroy` — **`tbm_destroy_trie`**, after any run.
-/

namespace TreeBitmap

open BitString LongestMatch Ranked

/-- A call of `destroy_subtrie`: the path of its node, and the node as it is then. -/
abbrev Visit := List ℕ × MbNode

/-- One round of the second loop of `destroy_subtrie`: the child is changed in its slot. -/
def walkKid (walk : Mm → MbNode → List ℕ → Option (MbNode × Mm × List Nhi × List Visit))
    (path : List ℕ) : MbNode × Mm × List Nhi × List Visit → ℕ →
      Option (MbNode × Mm × List Nhi × List Visit)
  | (node, m, calls, visits), stride =>
      let pos := countEnlBitmap stride
      if testBitmap node.external pos then do
        let next ← node.child pos
        let (next, m, more, seen) ← walk m next (path ++ [pos])
        let node ← node.setChild pos next
        some (node, m, calls ++ more, visits ++ seen)
      else some (node, m, calls, visits)

/-- `destroy_subtrie`, with the node changed in place, and its calls.  The fuel is for the
depth of the recursion. -/
def destroyWalk (destroyNhi : Bool) : ℕ → ℕ → Mm → MbNode → List ℕ →
    Option (MbNode × Mm × List Nhi × List Visit)
  | 0, _, _, _, _ => none
  | fuel + 1, depth, m, node, path => do
      let visits := [(path, node)]
      let (node, calls) ← destroyRules node destroyNhi
      let (node, m, calls, visits) ← (List.range (2 ^ STRIDE)).foldlM
        (walkKid (destroyWalk destroyNhi fuel (depth + 1)) path) (node, m, calls, visits)
      let cntRules := countChildren node.internal
      let first ← pointSub node.childPtr (upRule cntRules)
      let node := MbNode.zero
      -- counted after the bitmap has been cleared
      let cntChildren := countChildren node.external
      let m ← freeNode m first (upRule cntRules + upChild cntChildren) depth
      some (node, m, calls, visits)

variable {n : MbNode} {w i : ℕ} {path : List ℕ}

/-! ## Paths -/

/-- The nodes below `n`, which stands at `path`, with the first position below `i`. -/
structure VisitsBelow (path : List ℕ) (n : MbNode) (i : ℕ) (visits : List Visit) : Prop where
  once : (visits.map Prod.fst).Nodup
  mem : ∀ p c, (p, c) ∈ visits ↔
    ∃ r, p = path ++ r ∧ n.follow r = some c ∧ ∀ pos ∈ r.head?, pos < i

/-- Every node of the trie at `path` is visited once, and found as it was. -/
structure Visits (path : List ℕ) (n : MbNode) (visits : List Visit) : Prop where
  once : (visits.map Prod.fst).Nodup
  mem : ∀ p c, (p, c) ∈ visits ↔ ∃ r, p = path ++ r ∧ n.follow r = some c

theorem visitsBelow_zero (path : List ℕ) (n : MbNode) : VisitsBelow path n 0 [(path, n)] where
  once := List.nodup_singleton _
  mem := by
    intro p c
    rw [List.mem_singleton]
    constructor
    · intro h
      cases h
      exact ⟨[], (List.append_nil _).symm, rfl, by simp⟩
    · rintro ⟨r, rfl, hr, hhead⟩
      cases r with
      | nil =>
          cases hr
          rw [List.append_nil]
      | cons pos r => exact absurd (hhead pos rfl) (Nat.not_lt_zero pos)

theorem VisitsBelow.path_eq {visits : List Visit} (h : VisitsBelow path n i visits) {p : List ℕ}
    (hp : p ∈ visits.map Prod.fst) : ∃ r, p = path ++ r ∧ ∀ pos ∈ r.head?, pos < i := by
  obtain ⟨⟨p, c⟩, hmem, rfl⟩ := List.mem_map.mp hp
  obtain ⟨r, hr, -, hhead⟩ := (h.mem p c).mp hmem
  exact ⟨r, hr, hhead⟩

theorem Visits.path_eq {visits : List Visit} (h : Visits path n visits) {p : List ℕ}
    (hp : p ∈ visits.map Prod.fst) : ∃ r, p = path ++ r := by
  obtain ⟨⟨p, c⟩, hmem, rfl⟩ := List.mem_map.mp hp
  obtain ⟨r, hr, -⟩ := (h.mem p c).mp hmem
  exact ⟨r, hr⟩

/-- The child at `i` comes next. -/
theorem VisitsBelow.step {visits seen : List Visit} (h : VisitsBelow path n i visits)
    {k : MbNode} (hk : n.kid i = some k) (hseen : Visits (path ++ [i]) k seen) :
    VisitsBelow path n (i + 1) (visits ++ seen) where
  once := by
    rw [List.map_append]
    refine h.once.append hseen.once fun p hp hp' => ?_
    obtain ⟨r, rfl, hhead⟩ := h.path_eq hp
    obtain ⟨r', hr'⟩ := hseen.path_eq hp'
    rw [List.append_assoc, List.append_cancel_left_eq] at hr'
    rw [hr'] at hhead
    exact absurd (hhead i rfl) (lt_irrefl i)
  mem := by
    intro p c
    rw [List.mem_append, h.mem, hseen.mem]
    constructor
    · rintro (⟨r, rfl, hr, hhead⟩ | ⟨r, rfl, hr⟩)
      · exact ⟨r, rfl, hr, fun pos hpos => Nat.lt_succ_of_lt (hhead pos hpos)⟩
      · refine ⟨i :: r, by simp, ?_, fun pos hpos => ?_⟩
        · rw [follow_cons, hk]
          exact hr
        · cases hpos
          exact Nat.lt_succ_self _
    · rintro ⟨r, rfl, hr, hhead⟩
      cases r with
      | nil => exact .inl ⟨[], rfl, hr, by simp⟩
      | cons pos r =>
          rcases Nat.lt_succ_iff_lt_or_eq.mp (hhead pos rfl) with hlt | rfl
          · refine .inl ⟨pos :: r, rfl, hr, fun j hj => ?_⟩
            cases hj
            exact hlt
          · rw [follow_cons, hk] at hr
            exact .inr ⟨r, by simp, hr⟩

/-- There is no child at `i`. -/
theorem VisitsBelow.skip {visits : List Visit} (h : VisitsBelow path n i visits)
    (hnone : n.kid i = none) : VisitsBelow path n (i + 1) visits where
  once := h.once
  mem := by
    intro p c
    rw [h.mem]
    refine exists_congr fun r => and_congr_right fun _ => and_congr_right fun hr => ?_
    constructor
    · exact fun hhead pos hpos => Nat.lt_succ_of_lt (hhead pos hpos)
    · intro hhead pos hpos
      refine Nat.lt_of_le_of_ne (Nat.lt_succ_iff.mp (hhead pos hpos)) ?_
      rintro rfl
      obtain ⟨r, rfl⟩ := List.head?_eq_some_iff.mp hpos
      rw [follow_cons, hnone] at hr
      cases hr

/-- The positions are those below 64. -/
theorem VisitsBelow.visits {visits : List Visit} (h : VisitsBelow path n 64 visits) :
    Visits path n visits where
  once := h.once
  mem := by
    intro p c
    rw [h.mem]
    refine exists_congr fun r => and_congr_right fun _ => ?_
    refine and_iff_left_of_imp fun hr pos hpos => ?_
    obtain ⟨r, rfl⟩ := List.head?_eq_some_iff.mp hpos
    rw [follow_cons] at hr
    obtain ⟨c', hc', -⟩ := Option.bind_eq_some_iff.mp hr
    exact lt_of_mem_members (mem_of_kid hc')

/-! ## The walk -/

variable {m m' : Mm} {n' : MbNode} {d : Bool} {calls : List Nhi}

/-- The first loop keeps the bitmaps and the children. -/
theorem destroyRules_frame (h : destroyRules n d = some (n', calls)) :
    n'.external = n.external ∧ n'.children = n.children := by
  have hrule : ∀ st st' pos, destroyRule d st pos = some st' →
      st'.1.external = st.1.external ∧ st'.1.children = st.1.children := by
    rintro ⟨node, calls⟩ st' pos h
    rw [destroyRule] at h
    split at h
    · obtain ⟨v, -, h⟩ := Option.bind_eq_some_iff.mp h
      obtain ⟨node', hassign, h⟩ := Option.bind_eq_some_iff.mp h
      obtain ⟨rules, -, hnode⟩ := Option.bind_eq_some_iff.mp hassign
      cases hnode
      cases h
      exact ⟨rfl, rfl⟩
    · cases h
      exact ⟨rfl, rfl⟩
  refine Run.foldlM_range_of_eq_some
    (fun _ (st : MbNode × List Nhi) => st.1.external = n.external ∧ st.1.children = n.children)
    ⟨rfl, rfl⟩ (fun cidr st st' _ hst hround => ?_) h
  refine Run.foldlM_range_of_eq_some
    (fun _ (st : MbNode × List Nhi) => st.1.external = n.external ∧ st.1.children = n.children)
    hst (fun bit st st' _ hst hone => ?_) hround
  obtain ⟨hext, hchildren⟩ := hrule st st' _ hone
  exact ⟨hext.trans hst.1, hchildren.trans hst.2⟩

/-- After the positions below `i`: the node has its children from `i` on as they were. -/
structure KidsWalked (path : List ℕ) (n n' : MbNode) (i : ℕ) (node : MbNode)
    (visits : List Visit) : Prop where
  external : node.external = n.external
  internal : node.internal = n'.internal
  childPtr : node.childPtr = n'.childPtr
  length : node.children.length = n.children.length
  kid : ∀ j, i ≤ j → node.kid j = n.kid j
  visits : VisitsBelow path n i visits

/-- One round of the second loop: `hrec` is what the recursive call does. -/
theorem KidsWalked.step {node : MbNode} {visits : List Visit} {m₁ m₂ : Mm}
    {calls₁ calls₂ : List Nhi} {depth : ℕ}
    {walk : Mm → MbNode → List ℕ → Option (MbNode × Mm × List Nhi × List Visit)}
    (h : KidsWalked path n n' i node visits) (hn : n.Layout)
    (hrec : ∀ c m' more, n.kid i = some c →
      destroySubtrie m₁ c d (depth + 1) = some (m', more) →
        ∃ seen, walk m₁ c (path ++ [i]) = some (.zero, m', more, seen) ∧
          Visits (path ++ [i]) c seen)
    (hkid : destroyKid n d depth (m₁, calls₁) i = some (m₂, calls₂)) :
    ∃ node' visits', walkKid walk path (node, m₁, calls₁, visits) i =
      some (node', m₂, calls₂, visits') ∧ KidsWalked path n n' (i + 1) node' visits' := by
  have hlen : node.children.length = (members node.external).card := by
    rw [h.length, h.external, hn.children_length]
  rw [destroyKid] at hkid
  simp only [walkKid, countEnlBitmap, h.external]
  by_cases hmem : i ∈ members n.external
  · obtain ⟨c, hc⟩ := exists_kid hn hmem
    have hc : n.kid i = some c := hc
    have hnode : node.kid i = some c := (h.kid i le_rfl).trans hc
    rw [if_pos (testBitmap_iff.mpr hmem), child_eq_kid hmem, hc] at hkid
    simp only [Option.bind_eq_bind, Option.bind_some] at hkid
    obtain ⟨⟨m', more⟩, hdestroy, hkid⟩ := Option.bind_eq_some_iff.mp hkid
    cases hkid
    obtain ⟨seen, hwalk, hseen⟩ := hrec c _ _ hc hdestroy
    refine ⟨node.putChild i .zero, visits ++ seen, ?_, h.external, h.internal, h.childPtr, ?_,
      fun j hj => ?_, h.visits.step hc hseen⟩
    · rw [if_pos (testBitmap_iff.mpr hmem), child_eq_kid (mem_of_kid hnode), hnode]
      simp only [Option.bind_eq_bind, Option.bind_some, hwalk,
        setChild_eq_putChild hlen (mem_of_kid hnode)]
    · rw [MbNode.putChild, List.length_set, h.length]
    · have hne : j ≠ i := by omega
      have hput : (node.putChild i .zero).kid j = node.kid j :=
        (lookup_set hlen (mem_of_kid hnode) _ j).trans (if_neg hne)
      rw [hput, h.kid j (by omega)]
  · rw [if_neg fun ht => hmem (testBitmap_iff.mp ht)] at hkid
    cases hkid
    refine ⟨node, visits, ?_, h.external, h.internal, h.childPtr, h.length,
      fun j hj => h.kid j (by omega), h.visits.skip (lookup_of_notMem hmem)⟩
    rw [if_neg fun ht => hmem (testBitmap_iff.mp ht)]

/-- The second loop, after the first: it goes through as that of `destroySubtrie` does. -/
theorem walkKids_spec {m₁ : Mm} {calls₀ calls₁ : List Nhi} {depth : ℕ}
    {walk : Mm → MbNode → List ℕ → Option (MbNode × Mm × List Nhi × List Visit)}
    (hn : n.Layout) (hrules : destroyRules n d = some (n', calls₀))
    (hkids : (List.range (2 ^ STRIDE)).foldlM (destroyKid n d depth) (m, calls₀) =
      some (m₁, calls₁))
    (hrec : ∀ i m c m' more, n.kid i = some c →
      destroySubtrie m c d (depth + 1) = some (m', more) →
        ∃ seen, walk m c (path ++ [i]) = some (.zero, m', more, seen) ∧
          Visits (path ++ [i]) c seen) :
    ∃ node visits, (List.range (2 ^ STRIDE)).foldlM (walkKid walk path)
        (n', m, calls₀, [(path, n)]) = some (node, m₁, calls₁, visits) ∧
      KidsWalked path n n' (2 ^ STRIDE) node visits := by
  obtain ⟨hext, hchildren⟩ := destroyRules_frame hrules
  have hkid : ∀ j, n'.kid j = n.kid j := by
    intro j
    rw [MbNode.kid, MbNode.kid, hext, hchildren]
  have hstart : KidsWalked path n n' 0 n' [(path, n)] :=
    ⟨hext, rfl, rfl, by rw [hchildren], fun j _ => hkid j, visitsBelow_zero path n⟩
  obtain ⟨⟨node, _, _, visits⟩, hwalk, ⟨rfl, rfl⟩, hend⟩ := Run.foldlM_range_follow
    (g := walkKid walk path) (t := (n', m, calls₀, [(path, n)]))
    (fun i (st : Mm × List Nhi) (t : MbNode × Mm × List Nhi × List Visit) =>
      (t.2.1 = st.1 ∧ t.2.2.1 = st.2) ∧ KidsWalked path n n' i t.1 t.2.2.2)
    ⟨⟨rfl, rfl⟩, hstart⟩
    (fun i st st' t _ hst hround => by
      obtain ⟨node, _, _, visits⟩ := t
      obtain ⟨⟨rfl, rfl⟩, hst⟩ := hst
      obtain ⟨node', visits', hone, hst'⟩ := hst.step hn (hrec i st.1) hround
      exact ⟨_, hone, ⟨rfl, rfl⟩, hst'⟩) hkids
  exact ⟨node, visits, hwalk, hend⟩

/-- **The walk visits every node once, as it was**, and does what `destroySubtrie` does. -/
theorem destroyWalk_spec {fuel depth : ℕ} (hn : n.Wf w) (hfuel : w / 6 < fuel)
    (h : destroySubtrie m n d depth = some (m', calls)) (path : List ℕ) :
    ∃ visits, destroyWalk d fuel depth m n path = some (.zero, m', calls, visits) ∧
      Visits path n visits := by
  induction fuel generalizing m m' n w depth calls path with
  | zero => exact absurd hfuel (Nat.not_lt_zero _)
  | succ fuel ih =>
      rw [destroySubtrie_eq] at h
      obtain ⟨⟨n', calls₀⟩, hrules, h⟩ := Option.bind_eq_some_iff.mp h
      obtain ⟨⟨m₁, calls₁⟩, hkids, h⟩ := Option.bind_eq_some_iff.mp h
      obtain ⟨first, hfirst, h⟩ := Option.bind_eq_some_iff.mp h
      obtain ⟨m₂, hfree, h⟩ := Option.bind_eq_some_iff.mp h
      cases h
      obtain ⟨node, visits, hwalk, hend⟩ := walkKids_spec hn.layout hrules hkids
        fun i m c m' more hc hdestroy => by
          have hw := hn.le_of_kid hc
          exact ih (hn.kids hc) (by omega) hdestroy (path ++ [i])
      refine ⟨visits, ?_, hend.visits.visits⟩
      rw [destroyWalk, hrules]
      simp only [Option.bind_eq_bind, Option.bind_some, hwalk, hend.internal, hend.childPtr,
        hfirst, hfree]

/-! ## The engine -/

/-- A call of `destroy_subtrie` for a node of an entry. -/
abbrev EntryVisit := Fin (2 ^ INITIAL_BITS) × Visit

/-- One round of the loop of `tbm_destroy_trie`, with the visits. -/
def walkEntry (fuel : ℕ) (trie : TbmTrie) :
    Mm × List (Fin (2 ^ INITIAL_BITS)) × List EntryVisit → ℕ →
      Option (Mm × List (Fin (2 ^ INITIAL_BITS)) × List EntryVisit)
  | (m, visited, visits), i => do
      let x ← initIndex i
      if !(trie.init x).hasChild then some (m, visited, visits)
      else do
        let (_, m, _, seen) ← destroyWalk false fuel 0 m (trie.init x).node []
        some (m, visited ++ [x], visits ++ seen.map fun v => (x, v))

/-- `tbm_destroy_trie`, with the visits of the nodes of `up_aux` and of those of the entries. -/
def tbmDestroyTrieWalk (fuel : ℕ) (trie : TbmTrie) (destroyNhi : Bool) :
    Option (Destroyed × List Visit × List EntryVisit) := do
  let (_, upM, calls, aux) ← destroyWalk destroyNhi fuel 0 trie.upM trie.upAux []
  let (m, visited, visits) ←
    (List.range (2 ^ INITIAL_BITS)).foldlM (walkEntry fuel trie) (trie.m, [], [])
  some (⟨m, upM, calls, visited⟩, aux, visits)

/-- The nodes of the first `i` entries are visited once, and found as they were. -/
structure EntriesWalked (trie : TbmTrie) (i : ℕ) (visits : List EntryVisit) : Prop where
  once : (visits.map fun v => (v.1, v.2.1)).Nodup
  mem : ∀ x p c, (x, p, c) ∈ visits ↔
    (x : ℕ) < i ∧ (trie.init x).hasChild = true ∧ (trie.init x).node.follow p = some c

section Engine

variable {trie : TbmTrie} {visits : List EntryVisit} {seen : List Visit}

theorem EntriesWalked.step {x : Fin (2 ^ INITIAL_BITS)} (h : EntriesWalked trie x visits)
    (hx : (trie.init x).hasChild = true) (hseen : Visits [] (trie.init x).node seen) :
    EntriesWalked trie (x + 1) (visits ++ seen.map fun v => (x, v)) where
  once := by
    have hinj : Function.Injective fun p : List ℕ => (x, p) := fun _ _ h => (Prod.mk.inj h).2
    have hnew : (seen.map fun v => (x, v)).map (fun v => (v.1, v.2.1)) =
        (seen.map Prod.fst).map fun p => (x, p) := by
      rw [List.map_map, List.map_map]
      rfl
    rw [List.map_append, hnew]
    refine h.once.append (hseen.once.map hinj) ?_
    intro v hv hv'
    obtain ⟨p, -, rfl⟩ := List.mem_map.mp hv'
    obtain ⟨⟨y, p, c⟩, hmem, heq⟩ := List.mem_map.mp hv
    obtain ⟨rfl, -⟩ := Prod.mk.inj heq
    exact lt_irrefl _ ((h.mem _ p c).mp hmem).1
  mem := by
    intro y p c
    rw [List.mem_append, h.mem]
    constructor
    · rintro (⟨hlt, hrest⟩ | hmem)
      · exact ⟨Nat.lt_succ_of_lt hlt, hrest⟩
      · obtain ⟨⟨p, c⟩, hv, heq⟩ := List.mem_map.mp hmem
        cases heq
        obtain ⟨r, rfl, hr⟩ := (hseen.mem p c).mp hv
        exact ⟨Nat.lt_succ_self _, hx, hr⟩
    · rintro ⟨hlt, hchild, hfollow⟩
      rcases Nat.lt_succ_iff_lt_or_eq.mp hlt with hlt | heq
      · exact .inl ⟨hlt, hchild, hfollow⟩
      · obtain rfl : y = x := Fin.ext heq
        exact .inr (List.mem_map.mpr ⟨(p, c), (hseen.mem p c).mpr ⟨p, rfl, hfollow⟩, rfl⟩)

theorem EntriesWalked.skip {x : Fin (2 ^ INITIAL_BITS)} (h : EntriesWalked trie x visits)
    (hx : (trie.init x).hasChild = false) : EntriesWalked trie (x + 1) visits where
  once := h.once
  mem := by
    intro y p c
    rw [h.mem]
    refine and_congr_left fun hy => ?_
    rw [Nat.lt_succ_iff_lt_or_eq, iff_self_or]
    intro heq
    rw [Fin.ext heq, hx] at hy
    exact absurd hy.1 Bool.false_ne_true

variable {α : Type} [IpAddr α] [DecidableEq α] {T : Stored α} {fuel : ℕ}

/-- One round of the loop over the entries does what that of `tbm_destroy_trie` does. -/
theorem EntriesWalked.round (h : Pushes trie T) (hfuel : IpAddr.LENGTH α / 6 < fuel) {i : ℕ}
    (hi : i < 2 ^ INITIAL_BITS) {m : Mm} {visited : List (Fin (2 ^ INITIAL_BITS))}
    {st' : Mm × List (Fin (2 ^ INITIAL_BITS))} (hst : EntriesWalked trie i visits)
    (hround : (do
        let x ← initIndex i
        if !(trie.init x).hasChild then some (m, visited)
        else do
          let (m, _) ← destroySubtrie m (trie.init x).node false 0
          some (m, visited ++ [x])) = some st') :
    ∃ visits', walkEntry fuel trie (m, visited, visits) i = some (st'.1, st'.2, visits') ∧
      EntriesWalked trie (i + 1) visits' := by
  simp only [initIndex_of_lt hi, Option.bind_eq_bind, Option.bind_some] at hround
  simp only [walkEntry, initIndex_of_lt hi, Option.bind_eq_bind, Option.bind_some]
  cases hchild : (trie.init ⟨i, hi⟩).hasChild with
  | false =>
      rw [hchild] at hround
      cases hround
      exact ⟨visits, rfl, hst.skip (x := ⟨i, hi⟩) hchild⟩
  | true =>
      rw [hchild] at hround
      obtain ⟨⟨m', calls⟩, hdestroy, hround⟩ := Option.bind_eq_some_iff.mp hround
      cases hround
      have hdiv : (IpAddr.LENGTH α - INITIAL_BITS) / 6 ≤ IpAddr.LENGTH α / 6 :=
        Nat.div_le_div_right (sub_INITIAL_BITS_le α)
      obtain ⟨seen, hwalk, hseen⟩ := destroyWalk_spec (h.wf_of_hasChild hchild)
        (hdiv.trans_lt hfuel) hdestroy []
      refine ⟨_, ?_, hst.step hchild hseen⟩
      simp only [hwalk, Option.bind_some]
      rfl

/-- The loop visits the nodes of all entries that have a trie. -/
theorem walkEntries_spec (h : Pushes trie T) (hfuel : IpAddr.LENGTH α / 6 < fuel)
    {st : Mm × List (Fin (2 ^ INITIAL_BITS))}
    (hloop : destroyEntries (fun e => !e.hasChild) trie = some st) :
    ∃ visits, (List.range (2 ^ INITIAL_BITS)).foldlM (walkEntry fuel trie) (trie.m, [], []) =
        some (st.1, st.2, visits) ∧ EntriesWalked trie (2 ^ INITIAL_BITS) visits := by
  obtain ⟨⟨_, _, visits⟩, hwalk, ⟨rfl, rfl⟩, hend⟩ := Run.foldlM_range_follow
    (g := walkEntry fuel trie) (t := (trie.m, [], []))
    (fun i (st : Mm × List (Fin (2 ^ INITIAL_BITS))) t =>
      (t.1 = st.1 ∧ t.2.1 = st.2) ∧ EntriesWalked trie i t.2.2)
    ⟨⟨rfl, rfl⟩, List.nodup_nil, fun _ _ _ => by simp⟩ (fun i st st' t hi hst hround => by
      obtain ⟨m, visited, visits⟩ := t
      obtain ⟨⟨rfl, rfl⟩, hst⟩ := hst
      obtain ⟨visits', hone, hst'⟩ := EntriesWalked.round h hfuel hi hst hround
      exact ⟨_, hone, ⟨rfl, rfl⟩, hst'⟩) hloop
  exact ⟨visits, hwalk, hend⟩

/-- What a destroy of the engine is to do: `destroy_nhi` is called once for each stored prefix
whose next hop is not `NULL`, and every node is visited once, as it was. -/
structure DestroyedOnce (trie : TbmTrie) (T : Stored α) (r : Destroyed) (aux : List Visit)
    (entries : List EntryVisit) : Prop where
  calls : (r.calls : Multiset Nhi) = T.values.filter (· ≠ 0)
  aux : Visits [] trie.upAux aux
  entriesOnce : (entries.map fun v => (v.1, v.2.1)).Nodup
  entries : ∀ x p c, (x, p, c) ∈ entries ↔
    (trie.init x).hasChild = true ∧ (trie.init x).node.follow p = some c

theorem tbmDestroyTrieWalk_spec (h : Pushes trie T) (hfuel : IpAddr.LENGTH α / 6 < fuel) :
    ∃ r aux entries, tbmDestroyTrieWalk fuel trie true = some (r, aux, entries) ∧
      tbmDestroyTrie trie true = some r ∧ DestroyedOnce trie T r aux entries := by
  obtain ⟨r, hdestroy, hr⟩ := (exists_destroys_iff h (fun e => !e.hasChild) true).mpr
    fun x hx => by simpa using hx
  obtain ⟨⟨upM, calls⟩, haux, hrest⟩ := Option.bind_eq_some_iff.mp hdestroy
  obtain ⟨st, hloop, hst⟩ := Option.bind_eq_some_iff.mp hrest
  cases hst
  obtain ⟨aux, hwalk, hvisits⟩ := destroyWalk_spec h.aux.wf hfuel haux []
  obtain ⟨entries, hentries, hwalked⟩ := walkEntries_spec h hfuel hloop
  refine ⟨_, aux, entries, ?_, hdestroy, hr.calls, hvisits, hwalked.once, fun x p c => ?_⟩
  · rw [tbmDestroyTrieWalk, hwalk]
    simp only [Option.bind_eq_bind, Option.bind_some, hentries]
  · rw [hwalked.mem, and_iff_right x.isLt]

end Engine

/-- **`tbm_destroy_trie` releases each next hop once and visits every node once**, in every
engine that a run leaves. -/
theorem tbm_run_destroy (ops : List (Op IpV4)) (hops : (engineMachine IpV4).Legal ∅ ops)
    {fuel : ℕ} (hfuel : LENGTH / STRIDE < fuel) :
    ∃ trie r aux entries, ops.foldlM tbmStep tbmInitTrie = some trie ∧
      tbmDestroyTrieWalk fuel trie true = some (r, aux, entries) ∧
      tbmDestroyTrie trie true = some r ∧
      DestroyedOnce trie ((engineMachine IpV4).exec ∅ ops) r aux entries := by
  obtain ⟨trie, hrun, hpush⟩ := exists_engineStep_run hops
  obtain ⟨r, aux, entries, hwalk, hdestroy, honce⟩ := tbmDestroyTrieWalk_spec hpush hfuel
  exact ⟨trie, r, aux, entries, tbmStep_eq ▸ hrun, hwalk, hdestroy, honce⟩

theorem tbm_run_destroy_tenSlash8 :
    ∃ trie r aux entries, tenOps.foldlM tbmStep tbmInitTrie = some trie ∧
      tbmDestroyTrieWalk 6 trie true = some (r, aux, entries) ∧
      tbmDestroyTrie trie true = some r ∧
      DestroyedOnce trie ((engineMachine IpV4).exec ∅ tenOps) r aux entries :=
  tbm_run_destroy tenOps every_legal_tenOps (by decide)

end TreeBitmap
