import TreeBitmap.Delete
import TreeBitmap.Overlap

/-!
# Entries of the init table

An entry stands for the 13 bits of its index.  It holds the longest stored prefix of
up to 13 bits that matches them, pushed down to it, and the longer prefixes that start
with them.  As long as there never was a longer one it is a bare next hop, and a trie
from then on.

## Main definitions

* `coverLength`, `Holds w T s e` — what the entry for the bits `s` has to be, if `T` is
  stored.
* `insertEntry_spec`, `insertChild_spec`, `deleteEntry_spec`, `deleteChild_spec` — **each
  of the four updates of an entry is an update of the table**.
-/

namespace TreeBitmap

open BitString LongestMatch IpAddr

/-! ## The flag word -/

theorem flags_decode : ∀ k ≤ INITIAL_BITS,
    (prefixFlags k >>> PREFIX_HI).toNat = k ∧
      ((prefixFlags k ||| INIT_HAS_A_CHILD) >>> PREFIX_HI).toNat = k ∧
      (prefixFlags k &&& INIT_HAS_A_CHILD != 0#32) = false ∧
      ((prefixFlags k ||| INIT_HAS_A_CHILD) &&& INIT_HAS_A_CHILD != 0#32) = true := by
  decide

section Flags

variable {e : InitNode} {k : ℕ}

theorem prefixHi_pointer (hk : k ≤ INITIAL_BITS) (h : e.flags = prefixFlags k) :
    e.prefixHi = k := by
  rw [InitNode.prefixHi, h]
  exact (flags_decode k hk).1

theorem prefixHi_trie (hk : k ≤ INITIAL_BITS) (h : e.flags = prefixFlags k ||| INIT_HAS_A_CHILD) :
    e.prefixHi = k := by
  rw [InitNode.prefixHi, h]
  exact (flags_decode k hk).2.1

theorem hasChild_pointer (hk : k ≤ INITIAL_BITS) (h : e.flags = prefixFlags k) :
    e.hasChild = false := by
  rw [InitNode.hasChild, h]
  exact (flags_decode k hk).2.2.1

theorem hasChild_trie (hk : k ≤ INITIAL_BITS) (h : e.flags = prefixFlags k ||| INIT_HAS_A_CHILD) :
    e.hasChild = true := by
  rw [InitNode.hasChild, h]
  exact (flags_decode k hk).2.2.2

end Flags

/-- The first word does not outlive the next assignment to it. -/
theorem node_setPtr_setPtr (e : InitNode) (flags : BitVec 32) (a b : Nhi) :
    ((InitNode.setPtr ⟨flags, e.node⟩ a).setPtr b).node = (e.setPtr b).node := rfl

theorem node_setPtr_of_external {e : InitNode} (h : e.node.external = 0) :
    (e.setPtr 0).node = e.node := by
  cases e with
  | mk flags node =>
      cases node
      simp only at h
      rw [InitNode.setPtr, h]

theorem ptr_setPtr (e : InitNode) (a : Nhi) : (e.setPtr a).ptr = a := rfl

/-! ## What an entry holds -/

/-- The length of the longest match, and 0 if there is none. -/
def coverLength (T : Table Bool Nhi) (s : List Bool) : ℕ := (longest T s).elim 0 fun m => m.1.length

theorem coverLength_le (T : Table Bool Nhi) (s : List Bool) : coverLength T s ≤ s.length := by
  rw [coverLength]
  rcases hl : longest T s with _ | ⟨q, v⟩
  · exact Nat.zero_le _
  · exact (longest_eq_some_iff.mp hl).1.length_le

theorem longest_of_coverLength_eq_zero {T : Table Bool Nhi} {s : List Bool} (hnil : T [] = none)
    (h : coverLength T s = 0) : longest T s = none := by
  rcases hl : longest T s with _ | ⟨q, v⟩
  · rfl
  · obtain ⟨-, hv, -⟩ := longest_eq_some_iff.mp hl
    rw [coverLength, hl] at h
    have hq : q = [] := List.length_eq_zero_iff.mp h
    rw [hq, hnil] at hv
    cases hv

theorem lpm_of_coverLength_eq_zero {T : Table Bool Nhi} {s : List Bool} (hnil : T [] = none)
    (h : coverLength T s = 0) : lpm T s = none := by
  rw [lpm, longest_of_coverLength_eq_zero hnil h, Option.map_none]

theorem exists_lpm_of_coverLength_ne_zero {T : Table Bool Nhi} {s : List Bool}
    (h : coverLength T s ≠ 0) : ∃ v, lpm T s = some v := by
  rcases hl : longest T s with _ | ⟨q, v⟩
  · rw [coverLength, hl] at h
    exact absurd rfl h
  · exact ⟨v, by rw [lpm, hl, Option.map_some]⟩

/-- A stored prefix that is as long as the match is the match. -/
theorem longest_of_coverLength_le {T : Table Bool Nhi} {p s : List Bool} {v : Nhi} (hp : p <+: s)
    (hv : T p = some v) (h : coverLength T s ≤ p.length) : longest T s = some (p, v) := by
  refine longest_eq_some_iff.mpr ⟨hp, hv, fun q hq hT => ?_⟩
  rcases hl : longest T s with _ | ⟨r, x⟩
  · exact absurd (longest_eq_none_iff.mp hl q hq) hT
  · rw [coverLength, hl] at h
    exact ((longest_eq_some_iff.mp hl).2.2 q hq hT).trans h

/-- The entry for the bits `s` holds its part of the table: as a bare pointer, whose
node is empty but for the pointer in it, or as a trie of `w` more bits. -/
inductive Holds (w : ℕ) (T : Table Bool Nhi) (s : List Bool) (e : InitNode) : Prop
  | pointer (flags : e.flags = prefixFlags (coverLength T s))
      (long : ∀ u, u ≠ [] → T (s ++ u) = none)
      (ptr : e.ptr = (lpm T s).getD 0)
      (wf : (e.setPtr 0).node.Wf w)
      (empty : (e.setPtr 0).node.isEmpty)
  | trie (flags : e.flags = prefixFlags (coverLength T s) ||| INIT_HAS_A_CHILD)
      (wf : e.node.Wf w)
      (get : e.node.get = pushed T s)
      (full : e.node.isEmpty = false)

theorem holds_zero (w : ℕ) (s : List Bool) : Holds w (fun _ => none) s .zero := by
  have hnone : longest (fun _ => none : Table Bool Nhi) s = none :=
    longest_eq_none_iff.mpr fun _ _ => rfl
  refine .pointer ?_ (fun _ _ => rfl) ?_ (wf_zero w) rfl
  · rw [coverLength, hnone]
    rfl
  · rw [lpm, hnone]
    rfl

theorem Holds.prefixHi {w : ℕ} {T : Table Bool Nhi} {s : List Bool} {e : InitNode}
    (h : Holds w T s e) (hk : coverLength T s ≤ INITIAL_BITS) : e.prefixHi = coverLength T s := by
  cases h with
  | pointer flags => exact prefixHi_pointer hk flags
  | trie flags => exact prefixHi_trie hk flags

theorem Holds.u8_prefixHi {w : ℕ} {T : Table Bool Nhi} {s : List Bool} {e : InitNode}
    (h : Holds w T s e) (hk : coverLength T s ≤ INITIAL_BITS) :
    u8 e.prefixHi = coverLength T s := by
  have hlt : coverLength T s < 256 := lt_of_le_of_lt hk (by decide)
  rw [h.prefixHi hk, u8, Nat.mod_eq_of_lt hlt]

/-- An entry with a child holds its part as a trie. -/
theorem Holds.of_hasChild {w : ℕ} {T : Table Bool Nhi} {s : List Bool} {e : InitNode}
    (h : Holds w T s e) (hk : coverLength T s ≤ INITIAL_BITS) (hchild : e.hasChild = true) :
    e.flags = prefixFlags (coverLength T s) ||| INIT_HAS_A_CHILD ∧ e.node.Wf w ∧
      e.node.get = pushed T s ∧ e.node.isEmpty = false := by
  cases h with
  | pointer flags =>
      rw [hasChild_pointer hk flags] at hchild
      cases hchild
  | trie flags wf get full => exact ⟨flags, wf, get, full⟩

/-- An entry without one is a bare pointer. -/
theorem Holds.of_not_hasChild {w : ℕ} {T : Table Bool Nhi} {s : List Bool} {e : InitNode}
    (h : Holds w T s e) (hk : coverLength T s ≤ INITIAL_BITS) (hchild : e.hasChild = false) :
    e.flags = prefixFlags (coverLength T s) ∧ (∀ u, u ≠ [] → T (s ++ u) = none) ∧
      e.ptr = (lpm T s).getD 0 ∧ (e.setPtr 0).node.Wf w ∧ (e.setPtr 0).node.isEmpty := by
  cases h with
  | pointer flags long ptr wf empty => exact ⟨flags, long, ptr, wf, empty⟩
  | trie flags =>
      rw [hasChild_trie hk flags] at hchild
      cases hchild

theorem prefixFlags_zero : prefixFlags 0 = 0 := by decide

/-- An entry whose trie has become empty is a `NULL` pointer. -/
theorem holds_of_isEmpty {w : ℕ} {T : Table Bool Nhi} {s : List Bool} {node : MbNode}
    (hwf : node.Wf w) (hempty : node.isEmpty) (hget : node.get = pushed T s) :
    Holds w T s (InitNode.setPtr ⟨0, node⟩ 0) := by
  have hnone : pushed T s = fun _ => none := hget.symm.trans (get_of_isEmpty hempty)
  have hlpm : lpm T s = none := congrFun hnone []
  have hcover : coverLength T s = 0 := by
    rw [lpm, Option.map_eq_none_iff] at hlpm
    rw [coverLength, hlpm]
    rfl
  have hnode : ((InitNode.setPtr ⟨0, node⟩ 0).setPtr 0).node = node :=
    node_setPtr_of_external (e := ⟨0, node⟩) (isEmpty_external hempty)
  refine .pointer ?_ (fun u hu => ?_) ?_ (hnode.symm ▸ hwf) (hnode.symm ▸ hempty)
  · rw [hcover, prefixFlags_zero, InitNode.setPtr]
  · rw [← pushed_of_ne_nil T s hu, hnone]
  · rw [hlpm, ptr_setPtr, Option.getD_none]

/-- Only the match of `s` and what is stored under `s` count. -/
theorem Holds.congr {w : ℕ} {T T' : Table Bool Nhi} {s : List Bool} {e : InitNode}
    (h : Holds w T s e) (hl : longest T' s = longest T s)
    (hlong : ∀ u, u ≠ [] → T' (s ++ u) = T (s ++ u)) : Holds w T' s e := by
  have hcover : coverLength T' s = coverLength T s := by rw [coverLength, coverLength, hl]
  have hlpm : lpm T' s = lpm T s := by rw [lpm, lpm, hl]
  cases h with
  | pointer flags long ptr wf empty =>
      refine .pointer (hcover ▸ flags) (fun u hu => ?_) (hlpm ▸ ptr) wf empty
      rw [hlong u hu, long u hu]
  | trie flags wf get full =>
      refine .trie (hcover ▸ flags) wf ?_ full
      rw [get]
      apply eq_pushed hlpm.symm
      intro u hu
      rw [pushed_of_ne_nil T s hu, hlong u hu]

section Updates

variable {α : Type} [IpAddr α] {m : Mm} {w : ℕ} {T : Table Bool Nhi} {s p u : List Bool}
  {e : InitNode}

/-- A prefix of `s` is none of the strings below `s`. -/
theorem update_below (hp : p <+: s) (x : Option Nhi) (hu : u ≠ []) :
    Function.update T p x (s ++ u) = T (s ++ u) := by
  rw [Function.update_of_ne]
  intro h
  have hle := hp.length_le
  have hpos := List.length_pos_of_ne_nil hu
  rw [← h, List.length_append] at hle
  omega

theorem not_append_isPrefix (s : List Bool) (hu : u ≠ []) : ¬ s ++ u <+: s := by
  intro h
  have hle := h.length_le
  have hpos := List.length_pos_of_ne_nil hu
  rw [List.length_append] at hle
  omega

/-- An update below `s` is one of the pushed table. -/
theorem pushed_update_append (hu : u ≠ []) (x : Option Nhi) :
    Function.update (pushed T s) u x = pushed (Function.update T (s ++ u) x) s := by
  refine eq_pushed ?_ fun v hv => ?_
  · rw [Function.update_of_ne (Ne.symm hu), pushed_nil, lpm, lpm,
      longest_update_of_not_isPrefix (not_append_isPrefix s hu)]
  · by_cases hvu : v = u
    · rw [hvu, Function.update_self, Function.update_self]
    · rw [Function.update_of_ne hvu, pushed_of_ne_nil T s hv, Function.update_of_ne]
      intro h
      exact hvu (List.append_cancel_left h)

theorem coverLength_update_append (hu : u ≠ []) (x : Option Nhi) :
    coverLength (Function.update T (s ++ u) x) s = coverLength T s := by
  rw [coverLength, longest_update_of_not_isPrefix (not_append_isPrefix s hu), coverLength]

/-- An update of a prefix of `s` is one of the empty prefix of the pushed table. -/
theorem pushed_update_of_isPrefix (hp : p <+: s) (x : Option Nhi) :
    Function.update (pushed T s) [] (lpm (Function.update T p x) s) =
      pushed (Function.update T p x) s := by
  refine eq_pushed ?_ fun u hu => ?_
  · rw [Function.update_self]
  · rw [Function.update_of_ne hu, pushed_of_ne_nil T s hu, update_below hp x hu]

/-- An update elsewhere does not concern the entry. -/
theorem Holds.update_of_not_isPrefix (h : Holds w T s e) (hp : ¬ p <+: s) (hs : ¬ s <+: p)
    (x : Option Nhi) : Holds w (Function.update T p x) s e := by
  apply h.congr (longest_update_of_not_isPrefix hp x)
  intro u _
  rw [Function.update_of_ne]
  intro hsu
  exact hs (hsu ▸ List.prefix_append s u)

/-- Neither does an update of a prefix that a longer one hides. -/
theorem Holds.update_of_lt (h : Holds w T s e) (hp : p <+: s) (hlt : p.length < coverLength T s)
    (x : Option Nhi) : Holds w (Function.update T p x) s e := by
  rcases hl : longest T s with _ | ⟨q, v⟩
  · rw [coverLength, hl] at hlt
    exact absurd hlt (Nat.not_lt_zero _)
  · rw [coverLength, hl] at hlt
    exact h.congr ((longest_update_of_lt hl hlt x).trans hl.symm) fun u hu => update_below hp x hu

/-- What is left of an address below the index. -/
theorem spells_lshift_INITIAL_BITS (hs : s.length = INITIAL_BITS) {ip : α}
    (hip : Spells ip (s ++ u)) :
    Spells (lshift ip INITIAL_BITS) u ∧ (s ++ u).length - INITIAL_BITS = u.length := by
  have hdrop : (s ++ u).drop INITIAL_BITS = u := by rw [← hs, List.drop_left]
  have hlen : (s ++ u).length = INITIAL_BITS + u.length := by rw [List.length_append, hs]
  refine ⟨?_, by omega⟩
  exact hdrop ▸ hip.lshift (by decide) (by decide) (by omega)

/-! ## Inserts -/

/-- **`tbm_insert_prefix` on an entry that a short prefix covers.** -/
theorem insertEntry_spec (hok : m.Succeeds) (hs : s.length = INITIAL_BITS)
    (hw : w ≤ IpAddr.LENGTH α) (h : Holds w T s e) (hp : p <+: s) (nhi : Nhi) :
    ∃ e' m', insertEntry α e m p.length nhi = some (e', m') ∧ m'.op = m.op ∧
      Holds w (Function.update T p (some nhi)) s e' := by
  have hk : coverLength T s ≤ INITIAL_BITS := hs ▸ coverLength_le T s
  have hhi : e.prefixHi = coverLength T s := h.prefixHi hk
  by_cases hlt : p.length < coverLength T s
  · refine ⟨e, m, ?_, rfl, h.update_of_lt hp hlt _⟩
    rw [insertEntry, hhi, if_pos hlt, if_pos hlt, ite_self]
  · have hl : longest (Function.update T p (some nhi)) s = some (p, nhi) := by
      apply longest_update_of_le hp nhi
      intro q v hq
      rw [coverLength, hq] at hlt
      exact not_lt.mp hlt
    have hcover : coverLength (Function.update T p (some nhi)) s = p.length := by
      rw [coverLength, hl]
      rfl
    have hlpm : lpm (Function.update T p (some nhi)) s = some nhi := by
      rw [lpm, hl]
      rfl
    cases h with
    | pointer flags long ptr wf empty =>
        refine ⟨InitNode.setPtr ⟨prefixFlags p.length, e.node⟩ nhi, m, ?_, rfl,
          .pointer ?_ (fun u hu => ?_) ?_ ?_ ?_⟩
        · rw [insertEntry, hasChild_pointer hk flags, if_neg (by decide), hhi, if_neg hlt]
        · rw [hcover, InitNode.setPtr]
        · rw [update_below hp _ hu, long u hu]
        · rw [hlpm, ptr_setPtr, Option.getD_some]
        · rwa [node_setPtr_setPtr]
        · rwa [node_setPtr_setPtr]
    | trie flags wf get full =>
        obtain ⟨node, m', hins, hspec⟩ :=
          insertPrefix_spec hok wf (spells_zero (α := α)) (Nat.zero_le w) (level_of_le hw) nhi
        rw [List.length_nil] at hins
        refine ⟨⟨prefixFlags p.length ||| INIT_HAS_A_CHILD, node⟩, m', ?_, hspec.op,
          .trie ?_ hspec.wf ?_ hspec.full⟩
        · rw [insertEntry, hasChild_trie hk flags, if_pos rfl, hhi, if_neg hlt]
          simp only [hins, Option.bind_eq_bind, Option.bind_some]
        · rw [hcover]
        · rw [hspec.get, get, ← pushed_update_of_isPrefix hp, hlpm]

/-- A longer prefix goes into the trie of an entry. -/
theorem insertTrie_spec (hok : m.Succeeds) (hs : s.length = INITIAL_BITS)
    (hw : w ≤ IpAddr.LENGTH α) (hwf : e.node.Wf w) (hget : e.node.get = pushed T s)
    {ip : α} (hip : Spells ip (s ++ u)) (hu : u ≠ []) (huw : u.length ≤ w) (nhi : Nhi)
    (hflags : e.flags = prefixFlags (coverLength T s) ||| INIT_HAS_A_CHILD) :
    ∃ node m' ret, insertPrefix m e.node (lshift ip INITIAL_BITS) u.length 0 nhi =
        some (node, m', ret) ∧ m'.op = m.op ∧
      Holds w (Function.update T (s ++ u) (some nhi)) s { e with node := node } := by
  have hip' := (spells_lshift_INITIAL_BITS hs hip).1
  obtain ⟨node, m', hins, hspec⟩ := insertPrefix_spec hok hwf hip' huw (level_of_le hw) nhi
  refine ⟨node, m', _, hins, hspec.op, .trie ?_ hspec.wf ?_ hspec.full⟩
  · rw [coverLength_update_append hu]
    exact hflags
  · rw [hspec.get, hget, pushed_update_append hu]

/-- Before a longer prefix comes, a pointer has to be made into a trie: one that holds
the next hop of the pointer as its empty prefix, if there is one. -/
theorem insertPointer_spec (hok : m.Succeeds) (hw : w ≤ IpAddr.LENGTH α) (h : Holds w T s e)
    (hchild : e.hasChild = false) (hk : coverLength T s ≤ INITIAL_BITS) (hnil : T [] = none) :
    ∃ e' m', (if 0 < e.prefixHi then do
        let info := e.ptr
        let e := e.setPtr 0
        let (node, m, _) ← insertPrefix m e.node (IpAddr.zero : α) 0 0 info
        some ({ e with node := node }, m)
      else some (e, m)) = some (e', m') ∧ m'.op = m.op ∧
      e'.flags = prefixFlags (coverLength T s) ∧ e'.node.Wf w ∧ e'.node.get = pushed T s := by
  obtain ⟨flags, long, ptr, wf, empty⟩ := h.of_not_hasChild hk hchild
  have hnone : (e.setPtr 0).node.get = fun _ => none := get_of_isEmpty empty
  rw [prefixHi_pointer hk flags]
  by_cases hzero : coverLength T s = 0
  · -- nothing covers the entry, and its node is empty as it is
    have hlpm : lpm T s = none := lpm_of_coverLength_eq_zero hnil hzero
    have hnode : (e.setPtr 0).node = e.node := by
      rw [hlpm] at ptr
      exact node_setPtr_of_external ptr
    rw [hnode] at wf hnone
    refine ⟨e, m, ?_, rfl, flags, wf, ?_⟩
    · rw [hzero, if_neg (lt_irrefl 0)]
    · rw [hnone]
      exact eq_pushed hlpm.symm fun x hx => (long x hx).symm
  · obtain ⟨v, hlpm⟩ := exists_lpm_of_coverLength_ne_zero hzero
    obtain ⟨node, m', hins, hspec⟩ := insertPrefix_spec hok wf (spells_zero (α := α))
      (Nat.zero_le w) (level_of_le hw) v
    rw [List.length_nil] at hins
    rw [hlpm, Option.getD_some] at ptr
    refine ⟨⟨e.flags, node⟩, m', ?_, hspec.op, flags, hspec.wf, ?_⟩
    · rw [if_pos (Nat.pos_of_ne_zero hzero), ptr]
      simp only [hins, Option.bind_eq_bind, Option.bind_some]
      rfl
    · rw [hspec.get, hnone]
      refine eq_pushed ?_ fun x hx => ?_
      · rw [Function.update_self, hlpm]
      · rw [Function.update_of_ne hx, long x hx]

/-- **`tbm_insert_prefix` on the entry of a longer prefix.** -/
theorem insertChild_spec (hok : m.Succeeds) (hs : s.length = INITIAL_BITS)
    (hw : w ≤ IpAddr.LENGTH α) (h : Holds w T s e) (hnil : T [] = none) {ip : α}
    (hip : Spells ip (s ++ u)) (hu : u ≠ []) (huw : u.length ≤ w) (nhi : Nhi) :
    ∃ e' m', insertChild e m ip (s ++ u).length nhi = some (e', m') ∧ m'.op = m.op ∧
      Holds w (Function.update T (s ++ u) (some nhi)) s e' := by
  have hk : coverLength T s ≤ INITIAL_BITS := hs ▸ coverLength_le T s
  rw [insertChild, (spells_lshift_INITIAL_BITS hs hip).2]
  cases hchild : e.hasChild with
  | true =>
      obtain ⟨flags, wf, get, -⟩ := h.of_hasChild hk hchild
      obtain ⟨node, m', ret, hins, hop, hholds⟩ :=
        insertTrie_spec hok hs hw wf get hip hu huw nhi flags
      refine ⟨_, m', ?_, hop, hholds⟩
      rw [if_pos rfl]
      simp only [hins, Option.bind_eq_bind, Option.bind_some]
  | false =>
      obtain ⟨e₁, m₁, hmake, hop₁, hflags, hwf, hget⟩ :=
        insertPointer_spec hok hw h hchild hk hnil
      obtain ⟨node, m', ret, hins, hop, hholds⟩ :=
        insertTrie_spec (e := ⟨e₁.flags ||| INIT_HAS_A_CHILD, e₁.node⟩) (hok.of_op_eq hop₁) hs hw
          hwf hget hip hu huw nhi (by rw [hflags])
      refine ⟨_, m', ?_, hop.trans hop₁, hholds⟩
      rw [if_neg (by decide), hmake]
      simp only [hins, Option.bind_eq_bind, Option.bind_some]

/-! ## Deletes -/

/-- What lies before a prefix, as `tbm_delete_prefix` asks for it. -/
theorem detectOverlapGeneric_near {n : MbNode} {l : ℕ} (hn : n.Wf l) (hnil : n.get [] = none)
    {ip : α} (hip : Spells ip p) (bitsLimit : ℕ) :
    detectOverlapGeneric n ip p.length bitsLimit =
      some (coverLength n.get (p.take (min p.length bitsLimit - 1)),
        lpm n.get (p.take (min p.length bitsLimit - 1))) := by
  rw [detectOverlapGeneric_eq hn hip, coverLength, lpm]
  rcases hl : longest n.get (p.take (min p.length bitsLimit - 1)) with _ | ⟨_ | ⟨a, q⟩, v⟩
  · rfl
  · obtain ⟨-, hv, -⟩ := longest_eq_some_iff.mp hl
    rw [hnil] at hv
    cases hv
  · rfl

/-- Without the longest match, the nearest shorter prefix is the match. -/
theorem longest_update_cover (hnil : T [] = none) (hp : p <+: s) {v : Nhi} (hv : T p = some v)
    (hle : coverLength T s ≤ p.length) :
    longest (Function.update T p none) s = longest T p.dropLast := by
  have hne : p ≠ [] := by
    intro h
    rw [h, hnil] at hv
    cases hv
  rw [longest_update_none (longest_of_coverLength_le hp hv hle), if_neg hne]

theorem coverLength_update_cover (hnil : T [] = none) (hp : p <+: s) {v : Nhi}
    (hv : T p = some v) (hle : coverLength T s ≤ p.length) :
    coverLength (Function.update T p none) s = coverLength T p.dropLast := by
  rw [coverLength, longest_update_cover hnil hp hv hle, coverLength]

theorem lpm_update_cover (hnil : T [] = none) (hp : p <+: s) {v : Nhi} (hv : T p = some v)
    (hle : coverLength T s ≤ p.length) :
    lpm (Function.update T p none) s = lpm T p.dropLast := by
  rw [lpm, longest_update_cover hnil hp hv hle, lpm]

/-- A bare pointer is replaced. -/
theorem deletePointer_spec (h : Holds w T s e) (hchild : e.hasChild = false)
    (hk : coverLength T s ≤ INITIAL_BITS) (hnil : T [] = none) (hp : p <+: s) {v : Nhi}
    (hv : T p = some v) (hle : coverLength T s ≤ p.length) (d : Bool) :
    ∃ e', (let calls := if d then [e.ptr] else []
        if coverLength T p.dropLast = 0 then
          let e := { e with flags := 0 }
          some (e.setPtr 0, m, false, calls)
        else
          let e := { e with flags := prefixFlags (coverLength T p.dropLast) }
          some (e.setPtr ((lpm T p.dropLast).getD 0), m, false, calls)) =
        some (e', m, false, if d then [v] else []) ∧ Holds w (Function.update T p none) s e' := by
  have hlpm : lpm T s = some v := by
    rw [lpm, longest_of_coverLength_le hp hv hle]
    rfl
  obtain ⟨flags, long, ptr, wf, empty⟩ := h.of_not_hasChild hk hchild
  refine ⟨InitNode.setPtr ⟨prefixFlags (coverLength T p.dropLast), e.node⟩
    ((lpm T p.dropLast).getD 0), ?_, .pointer ?_ (fun u hu => ?_) ?_ ?_ ?_⟩
  · rw [ptr, hlpm, Option.getD_some]
    by_cases hnear : coverLength T p.dropLast = 0
    · rw [if_pos hnear, hnear, lpm_of_coverLength_eq_zero hnil hnear, prefixFlags_zero,
        Option.getD_none]
    · rw [if_neg hnear]
  · rw [coverLength_update_cover hnil hp hv hle, InitNode.setPtr]
  · rw [update_below hp _ hu, long u hu]
  · rw [lpm_update_cover hnil hp hv hle, ptr_setPtr]
  · rwa [node_setPtr_setPtr]
  · rwa [node_setPtr_setPtr]

/-- In a trie, the empty prefix is taken out if no shorter one takes its place. -/
theorem clearTrie_spec (hok : m.Succeeds) (hw : w ≤ IpAddr.LENGTH α) (hwf : e.node.Wf w)
    (hget : e.node.get = pushed T s) (hnil : T [] = none) (hp : p <+: s) {v : Nhi}
    (hv : T p = some v) (hle : coverLength T s ≤ p.length)
    (hnear : coverLength T p.dropLast = 0) (d : Bool) :
    ∃ e' m', (do
        let (node, m, ret, calls) ← deletePrefix m e.node (IpAddr.zero : α) 0 d
        let e := { e with node := node }
        if ¬ ret then some ({ e with flags := 0 ||| INIT_HAS_A_CHILD }, m, false, calls)
        else
          let e := { e with flags := 0 }
          some (e.setPtr 0, m, false, calls)) =
        some (e', m', false, if d then [v] else []) ∧ m'.op = m.op ∧
      Holds w (Function.update T p none) s e' := by
  have hgetv : e.node.get [] = some v := by
    rw [hget, pushed_nil, lpm, longest_of_coverLength_le hp hv hle]
    rfl
  have hnone : lpm (Function.update T p none) s = none := by
    rw [lpm_update_cover hnil hp hv hle, lpm_of_coverLength_eq_zero hnil hnear]
  obtain ⟨node, m', lost, hdel, hspec⟩ :=
    deletePrefix_spec hok hwf (spells_zero (α := α)) hw hgetv d
  rw [List.length_nil] at hdel
  have hget' : node.get = pushed (Function.update T p none) s := by
    rw [hspec.get, hget, ← pushed_update_of_isPrefix hp, hnone]
  simp only [hdel, Option.bind_eq_bind, Option.bind_some]
  by_cases hempty : node.isEmpty
  · refine ⟨InitNode.setPtr ⟨0, node⟩ 0, m', ?_, hspec.op,
      holds_of_isEmpty hspec.wf hempty hget'⟩
    rw [if_neg (not_not.mpr hempty)]
  · refine ⟨⟨prefixFlags 0 ||| INIT_HAS_A_CHILD, node⟩, m', ?_, hspec.op,
      .trie ?_ hspec.wf hget' (Bool.eq_false_iff.mpr hempty)⟩
    · rw [if_pos hempty, prefixFlags_zero]
    · rw [coverLength_update_cover hnil hp hv hle, hnear]

/-- Otherwise, it is replaced by that one. -/
theorem replaceTrie_spec (hwf : e.node.Wf w) (hget : e.node.get = pushed T s)
    (hfull : e.node.isEmpty = false) (hnil : T [] = none) (hp : p <+: s) {v : Nhi}
    (hv : T p = some v) (hle : coverLength T s ≤ p.length)
    (hnear : coverLength T p.dropLast ≠ 0) (d : Bool) :
    ∃ e', (do
        let e := { e with flags := prefixFlags (coverLength T p.dropLast) ||| INIT_HAS_A_CHILD }
        let (_, node, ond) ← traverseBranch overlapNhi e.node (IpAddr.zero : α) 0
          ⟨d, (lpm T p.dropLast).getD 0, []⟩
        some ({ e with node := node }, m, false, ond.calls)) =
        some (e', m, false, if d then [v] else []) ∧ Holds w (Function.update T p none) s e' := by
  have hgetv : e.node.get [] = some v := by
    rw [hget, pushed_nil, lpm, longest_of_coverLength_le hp hv hle]
    rfl
  obtain ⟨x, hsome⟩ := exists_lpm_of_coverLength_ne_zero hnear
  have hrule : e.node.rule 0 = some v :=
    (MbNode.get_of_lt (s := []) (by decide)).symm.trans hgetv
  simp only [traverseBranch_overlapNhi hwf.layout hgetv, Option.bind_eq_bind, Option.bind_some]
  refine ⟨_, rfl, .trie ?_ (wf_putRule hwf 0 _) ?_ hfull⟩
  · rw [coverLength_update_cover hnil hp hv hle]
  · rw [← pushed_update_of_isPrefix hp, lpm_update_cover hnil hp hv hle, ← hget, hsome]
    exact get_eq_update_of_lt (by decide) (rule_putRule hwf.layout (mem_of_rule hrule) _)
      fun _ => rfl

/-- **`tbm_delete_prefix` on an entry that a short prefix covers.**  The next hop is
handed over if the prefix is the longest one here. -/
theorem deleteEntry_spec (hok : m.Succeeds) (hs : s.length = INITIAL_BITS)
    (hw : w ≤ IpAddr.LENGTH α) (h : Holds w T s e) (hnil : T [] = none) (hp : p <+: s) {v : Nhi}
    (hv : T p = some v) (d : Bool) :
    ∃ e' m', deleteEntry α e m p.length (coverLength T p.dropLast)
        ((lpm T p.dropLast).getD 0) d =
          some (e', m', if p.length < coverLength T s then (d, [])
            else (false, if d then [v] else [])) ∧
      m'.op = m.op ∧ Holds w (Function.update T p none) s e' := by
  have hk : coverLength T s ≤ INITIAL_BITS := hs ▸ coverLength_le T s
  rw [deleteEntry, h.u8_prefixHi hk]
  by_cases hlt : p.length < coverLength T s
  · refine ⟨e, m, ?_, rfl, h.update_of_lt hp hlt _⟩
    simp only [if_pos hlt, ite_self]
  · simp only [if_neg hlt]
    cases hchild : e.hasChild with
    | false =>
        obtain ⟨e', hdel, hholds⟩ :=
          deletePointer_spec (m := m) h hchild hk hnil hp hv (not_lt.mp hlt) d
        exact ⟨e', m, hdel, rfl, hholds⟩
    | true =>
        obtain ⟨-, wf, get, full⟩ := h.of_hasChild hk hchild
        by_cases hnear : coverLength T p.dropLast = 0
        · obtain ⟨e', m', hdel, hop, hholds⟩ :=
            clearTrie_spec hok hw wf get hnil hp hv (not_lt.mp hlt) hnear d
          refine ⟨e', m', ?_, hop, hholds⟩
          rw [if_pos rfl, if_pos hnear]
          exact hdel
        · obtain ⟨e', hrep, hholds⟩ := replaceTrie_spec (α := α) (m := m) wf get full hnil hp
            hv (not_lt.mp hlt) hnear d
          refine ⟨e', m, ?_, rfl, hholds⟩
          rw [if_pos rfl, if_neg hnear]
          exact hrep

/-- **`tbm_delete_prefix` on the entry of a longer prefix.** -/
theorem deleteChild_spec (hok : m.Succeeds) (hs : s.length = INITIAL_BITS)
    (hw : w ≤ IpAddr.LENGTH α) (h : Holds w T s e) (hnil : T [] = none) {upAux : MbNode}
    (haux : upAux.Wf (IpAddr.LENGTH α)) (hget : upAux.get = T) {ip : α}
    (hip : Spells ip (s ++ u)) (hu : u ≠ []) {v : Nhi} (hv : T (s ++ u) = some v) (d : Bool) :
    ∃ e' m', deleteChild e m upAux ip (s ++ u).length d =
        some (e', m', if d then [v] else []) ∧ m'.op = m.op ∧
      Holds w (Function.update T (s ++ u) none) s e' := by
  have hk : coverLength T s ≤ INITIAL_BITS := hs ▸ coverLength_le T s
  obtain ⟨hip', hlen⟩ := spells_lshift_INITIAL_BITS hs hip
  have hl := longest_update_of_not_isPrefix (T := T) (not_append_isPrefix s hu) none
  cases h with
  | pointer flags long =>
      rw [long u hu] at hv
      cases hv
  | trie flags wf get full =>
      have hgetv : e.node.get u = some v := by rw [get, pushed_of_ne_nil T s hu, hv]
      obtain ⟨node, m', lost, hdel, hspec⟩ := deletePrefix_spec hok wf hip' hw hgetv d
      have hget' : node.get = pushed (Function.update T (s ++ u) none) s := by
        rw [hspec.get, get, pushed_update_append hu]
      rw [deleteChild, hasChild_trie hk flags, if_pos rfl, hlen]
      simp only [hdel, Option.bind_eq_bind, Option.bind_some]
      by_cases hempty : node.isEmpty
      · -- nothing is left at this entry, so that no prefix covers it either
        have hnone : longest T s = none := by
          have := congrFun (get_of_isEmpty hempty) []
          rw [hget', pushed_nil, lpm, hl, Option.map_eq_none_iff] at this
          exact this
        have hdetect : detectOverlapGeneric upAux ip (s ++ u).length INITIAL_BITS =
            some (0, none) := by
          have htake : (s ++ u).take (min (s ++ u).length INITIAL_BITS - 1) = s.dropLast := by
            rw [List.dropLast_eq_take, List.length_append, hs, min_eq_right (by omega),
              List.take_append_of_le_length (by omega)]
          have hnear : longest T s.dropLast = none :=
            longest_eq_none_iff.mpr fun q hq =>
              longest_eq_none_iff.mp hnone q (hq.trans (List.dropLast_prefix s))
          rw [detectOverlapGeneric_near haux (by rw [hget, hnil]) hip, htake, hget, coverLength,
            lpm, hnear]
          rfl
        refine ⟨InitNode.setPtr ⟨0, node⟩ 0, m', ?_, hspec.op,
          holds_of_isEmpty hspec.wf hempty hget'⟩
        rw [if_pos hempty, hdetect]
        rfl
      · refine ⟨⟨e.flags, node⟩, m', ?_, hspec.op,
          .trie ?_ hspec.wf hget' (Bool.eq_false_iff.mpr hempty)⟩
        · rw [if_neg hempty]
        · rw [coverLength_update_append hu]
          exact flags

end Updates

end TreeBitmap
