import TreeBitmap.Entry
import TreeBitmap.Refinement

/-!
# The leaf-pushed engines refine the map

An update by a short prefix is made in each of the entries it covers, which are
consecutive; an update by a longer one is made in one entry.  All the other entries
have nothing to do with the prefix.

## Main definitions

* `indexBits x` — the bits an entry stands for.
* `Pushes trie T` — the engine holds the map.
* `tbmInsert_spec`, `tbmDelete_spec` — **an update of the engine is an update of the
  map**; what a delete hands to `destroy_nhi`.
* `tbmMachine`, `exists_leafStep_run` — runs.
-/

namespace TreeBitmap

open BitString LongestMatch IpAddr

/-! ## Indices -/

/-- The bits that an entry stands for. -/
def indexBits (x : Fin (2 ^ INITIAL_BITS)) : List Bool := ofBitVec (BitVec.ofFin x)

@[simp] theorem length_indexBits (x : Fin (2 ^ INITIAL_BITS)) :
    (indexBits x).length = INITIAL_BITS := length_ofBitVec _

@[simp] theorem value_indexBits (x : Fin (2 ^ INITIAL_BITS)) : value (indexBits x) = x :=
  value_ofBitVec _

theorem indexBits_injective : Function.Injective indexBits := by
  intro x y h
  have hval := congrArg value h
  rw [value_indexBits, value_indexBits] at hval
  exact Fin.ext hval

theorem coverLength_indexBits_le (T : Table Bool Nhi) (x : Fin (2 ^ INITIAL_BITS)) :
    coverLength T (indexBits x) ≤ INITIAL_BITS :=
  (coverLength_le T _).trans (length_indexBits x).le

theorem initIndex_of_lt {i : ℕ} (hi : i < 2 ^ INITIAL_BITS) : initIndex i = some ⟨i, hi⟩ :=
  dif_pos hi

theorem exists_initIndex {s : List Bool} (hs : s.length = INITIAL_BITS) :
    ∃ x, initIndex (value s) = some x ∧ indexBits x = s := by
  have hlt : value s < 2 ^ INITIAL_BITS := hs ▸ value_lt s
  refine ⟨⟨value s, hlt⟩, initIndex_of_lt hlt, value_injective ?_ ?_⟩
  · rw [length_indexBits, hs]
  · rw [value_indexBits]

/-- The entries that a short prefix covers are consecutive. -/
theorem prefix_indexBits_iff {s : List Bool} (hs : s.length ≤ INITIAL_BITS)
    (x : Fin (2 ^ INITIAL_BITS)) :
    s <+: indexBits x ↔ value s * 2 ^ (INITIAL_BITS - s.length) ≤ x ∧
      (x : ℕ) < value s * 2 ^ (INITIAL_BITS - s.length) + 2 ^ (INITIAL_BITS - s.length) := by
  constructor
  · intro h
    obtain ⟨r, hr⟩ := h
    have hlen : r.length = INITIAL_BITS - s.length := by
      rw [← length_indexBits x, ← hr, List.length_append]
      omega
    have hlt := value_lt r
    rw [← value_indexBits x, ← hr, value_append, hlen]
    rw [hlen] at hlt
    omega
  · intro h
    obtain ⟨r, hlen, hr⟩ := exists_value_eq (k := INITIAL_BITS - s.length)
      (v := x - value s * 2 ^ (INITIAL_BITS - s.length)) (by omega)
    refine ⟨r, value_injective ?_ ?_⟩
    · rw [List.length_append, hlen, length_indexBits]
      omega
    · rw [value_append, hlen, hr, value_indexBits]
      omega

/-- The entries of a sweep. -/
theorem exists_initIndex_add {p : List Bool} (hp : p.length ≤ INITIAL_BITS) {i : ℕ}
    (hi : i < 2 ^ (INITIAL_BITS - p.length)) :
    ∃ x, initIndex (value p * 2 ^ (INITIAL_BITS - p.length) + i) = some x ∧
      (x : ℕ) = value p * 2 ^ (INITIAL_BITS - p.length) + i ∧ p <+: indexBits x := by
  have hlt : value p * 2 ^ (INITIAL_BITS - p.length) + i < 2 ^ INITIAL_BITS :=
    calc value p * 2 ^ (INITIAL_BITS - p.length) + i
        < (value p + 1) * 2 ^ (INITIAL_BITS - p.length) := by rw [Nat.succ_mul]; omega
      _ ≤ 2 ^ p.length * 2 ^ (INITIAL_BITS - p.length) :=
          Nat.mul_le_mul_right _ (value_lt p)
      _ = 2 ^ INITIAL_BITS := by rw [← pow_add]; congr 1; omega
  refine ⟨⟨_, hlt⟩, initIndex_of_lt hlt, rfl, (prefix_indexBits_iff hp _).mpr ?_⟩
  exact ⟨Nat.le_add_right _ _, Nat.add_lt_add_left hi _⟩

section Index

variable {α : Type} [IpAddr α]

theorem indexOf_eq (ip : α) : indexOf ip = value ((bits ip).take INITIAL_BITS) := by
  have hlen := le_length (α := α)
  have hlt := value_lt ((bits ip).take INITIAL_BITS)
  rw [List.length_take, IpAddr.length_bits, min_eq_left (by rw [INITIAL_BITS]; omega)] at hlt
  have hpow : 2 ^ INITIAL_BITS ≤ 2 ^ 32 := Nat.pow_le_pow_right (by decide) (by decide)
  rw [indexOf, IpAddr.rshift_eq ip _ (by decide) (by decide), Nat.mod_eq_of_lt (by omega)]

theorem Spells.indexOf_eq {ip : α} {s : List Bool} (h : Spells ip s)
    (hs : s.length ≤ INITIAL_BITS) : indexOf ip = value s * 2 ^ (INITIAL_BITS - s.length) := by
  have hlen := le_length (α := α)
  rw [TreeBitmap.indexOf_eq, h, List.take_append, List.take_of_length_le hs, List.take_replicate,
    value_append, value_replicate_false, List.length_replicate, add_zero,
    min_eq_left (by rw [INITIAL_BITS] at *; omega)]

end Index

/-! ## A sweep over consecutive entries -/

/-- The first `i` entries from `base` on hold `T'`; the others are as they were. -/
structure Swept (w : ℕ) (T' : Table Bool Nhi) (base i : ℕ) (trie trie' : TbmTrie) : Prop where
  upAux : trie'.upAux = trie.upAux
  upM : trie'.upM = trie.upM
  op : trie'.m.op = trie.m.op
  done : ∀ x : Fin (2 ^ INITIAL_BITS), base ≤ x → (x : ℕ) < base + i →
    Holds w T' (indexBits x) (trie'.init x)
  rest : ∀ x : Fin (2 ^ INITIAL_BITS), ¬ (base ≤ x ∧ (x : ℕ) < base + i) →
    trie'.init x = trie.init x

section Sweep

variable {w base i : ℕ} {T T' : Table Bool Nhi} {trie trie' : TbmTrie} {e : InitNode} {m : Mm}

theorem init_setEntry (x y : Fin (2 ^ INITIAL_BITS)) :
    (trie.setEntry x e m).init y = Function.update trie.init x e y := rfl

theorem swept_zero (w : ℕ) (T' : Table Bool Nhi) (base : ℕ) (trie : TbmTrie) :
    Swept w T' base 0 trie trie := by
  refine ⟨rfl, rfl, rfl, fun x hle hlt => ?_, fun _ _ => rfl⟩
  omega

theorem Swept.step (h : Swept w T' base i trie trie') (x : Fin (2 ^ INITIAL_BITS))
    (hx : (x : ℕ) = base + i) (hop : m.op = trie'.m.op) (he : Holds w T' (indexBits x) e) :
    Swept w T' base (i + 1) trie (trie'.setEntry x e m) := by
  refine ⟨h.upAux, h.upM, hop.trans h.op, fun y hle hlt => ?_, fun y hy => ?_⟩
  · rw [init_setEntry]
    by_cases hyx : y = x
    · rw [hyx, Function.update_self]
      exact he
    · rw [Function.update_of_ne hyx]
      apply h.done y hle
      have : (y : ℕ) ≠ x := fun h => hyx (Fin.ext h)
      omega
  · have hyx : y ≠ x := by
      intro h
      rw [h] at hy
      omega
    rw [init_setEntry, Function.update_of_ne hyx]
    exact h.rest y (by omega)

/-- A sweep over the entries that a prefix covers updates the whole table. -/
theorem Swept.holds {p : List Bool} (hp : p.length ≤ INITIAL_BITS) {x : Option Nhi}
    (h : Swept w (Function.update T p x) (value p * 2 ^ (INITIAL_BITS - p.length))
      (2 ^ (INITIAL_BITS - p.length)) trie trie')
    (hT : ∀ y, Holds w T (indexBits y) (trie.init y)) (y : Fin (2 ^ INITIAL_BITS)) :
    Holds w (Function.update T p x) (indexBits y) (trie'.init y) := by
  by_cases hy : p <+: indexBits y
  · obtain ⟨hle, hlt⟩ := (prefix_indexBits_iff hp y).mp hy
    exact h.done y hle hlt
  · rw [h.rest y fun hin => hy ((prefix_indexBits_iff hp y).mpr hin)]
    refine (hT y).update_of_not_isPrefix hy (fun hpre => hy ?_) x
    rw [hpre.eq_of_length_le (by rw [length_indexBits]; exact hp)]

/-- An update of the one entry that a longer prefix belongs to. -/
theorem holds_setEntry {x : Fin (2 ^ INITIAL_BITS)} {u : List Bool} {v : Option Nhi} (hu : u ≠ [])
    (hT : ∀ y, Holds w T (indexBits y) (trie.init y))
    (he : Holds w (Function.update T (indexBits x ++ u) v) (indexBits x) e) (m : Mm)
    (y : Fin (2 ^ INITIAL_BITS)) :
    Holds w (Function.update T (indexBits x ++ u) v) (indexBits y)
      ((trie.setEntry x e m).init y) := by
  rw [init_setEntry]
  by_cases hyx : y = x
  · rw [hyx, Function.update_self]
    exact he
  · rw [Function.update_of_ne hyx]
    refine (hT y).update_of_not_isPrefix (fun h => ?_) (fun h => hyx ?_) v
    · have hle := h.length_le
      have hpos := List.length_pos_of_ne_nil hu
      rw [List.length_append, length_indexBits, length_indexBits] at hle
      omega
    · apply indexBits_injective
      refine (List.prefix_of_prefix_length_le h (List.prefix_append _ u) ?_).eq_of_length ?_
      · rw [length_indexBits, length_indexBits]
      · rw [length_indexBits, length_indexBits]

end Sweep

section Entries

variable {α : Type} [IpAddr α]

variable (α) in
theorem sub_INITIAL_BITS_le : IpAddr.LENGTH α - INITIAL_BITS ≤ IpAddr.LENGTH α := Nat.sub_le _ _

/-- A longer prefix belongs to one entry. -/
theorem exists_entry {p : Prefix α} (hp : INITIAL_BITS < p.cidr) :
    ∃ x u, initIndex (indexOf p.ip) = some x ∧ p.bits = indexBits x ++ u ∧ u ≠ [] ∧
      u.length ≤ IpAddr.LENGTH α - INITIAL_BITS := by
  have hlen := p.length_bits
  have hle := p.cidr_le
  have htake : (p.bits.take INITIAL_BITS).length = INITIAL_BITS := by
    rw [List.length_take]
    omega
  obtain ⟨x, hx, hxbits⟩ := exists_initIndex htake
  refine ⟨x, p.bits.drop INITIAL_BITS, ?_, ?_, ?_, ?_⟩
  · rw [indexOf_eq, ← hx, Prefix.bits, List.take_take, min_eq_left hp.le]
  · rw [hxbits, List.take_append_drop]
  · apply List.ne_nil_of_length_pos
    rw [List.length_drop]
    omega
  · rw [List.length_drop]
    omega

end Entries

/-! ## Updates -/

section Updates

variable {α : Type} [IpAddr α] [DecidableEq α]

/-- The engine holds the map: `up_aux` as a trie, and each entry its part. -/
structure Pushes (trie : TbmTrie) (T : Stored α) : Prop where
  aux : Mirrors (trie.upAux, trie.upM) T
  entries : ∀ x, Holds (IpAddr.LENGTH α - INITIAL_BITS) T.table (indexBits x) (trie.init x)
  succeeds : trie.m.Succeeds
  pos : ∀ p ∈ T, 1 ≤ p.cidr

variable {trie : TbmTrie} {T : Stored α}

theorem pushes_init : Pushes tbmInitTrie (∅ : Stored α) where
  aux := mirrors_zero succeeds_mmInit_simple
  entries := by
    intro x
    rw [table_empty]
    exact holds_zero _ _
  succeeds := succeeds_mmInit_simple
  pos := fun p hp => absurd hp Finmap.notMem_empty

theorem Pushes.table_nil (h : Pushes trie T) : T.table [] = none := by
  rcases hT : T.table [] with _ | v
  · rfl
  · obtain ⟨p, hbits, hp⟩ := exists_prefix_of_table hT
    have hpos := h.pos p (Finmap.mem_of_lookup_eq_some hp)
    rw [← p.length_bits, hbits] at hpos
    simp at hpos

theorem Pushes.wf_of_hasChild (h : Pushes trie T) {x : Fin (2 ^ INITIAL_BITS)}
    (hx : (trie.init x).hasChild = true) :
    (trie.init x).node.Wf (IpAddr.LENGTH α - INITIAL_BITS) :=
  ((h.entries x).of_hasChild (coverLength_indexBits_le T.table x) hx).2.1

/-- What `tbm_delete_prefix` finds before a short prefix. -/
theorem Pushes.detectOverlap_eq (h : Pushes trie T) {p : Prefix α} (hp : p.cidr ≤ INITIAL_BITS) :
    detectOverlapGeneric trie.upAux p.ip p.cidr INITIAL_BITS =
      some (coverLength T.table p.bits.dropLast, lpm T.table p.bits.dropLast) := by
  have hget : trie.upAux.get = T.table := h.aux.get
  have hnil : trie.upAux.get [] = none := hget ▸ h.table_nil
  have hnear := detectOverlapGeneric_near h.aux.wf hnil p.spells INITIAL_BITS
  rw [min_eq_left (p.length_bits ▸ hp), ← List.dropLast_eq_take, p.length_bits] at hnear
  rw [hnear, hget]

/-- The loop of `tbm_insert_prefix`. -/
theorem insertSweep_spec (h : Pushes trie T) {p : Prefix α} (hp : p.cidr ≤ INITIAL_BITS)
    (nhi : Nhi) :
    ∃ trie', insertSweep trie p.ip p.cidr nhi = some trie' ∧
      Swept (IpAddr.LENGTH α - INITIAL_BITS) (Function.update T.table p.bits (some nhi))
        (value p.bits * 2 ^ (INITIAL_BITS - p.bits.length))
        (2 ^ (INITIAL_BITS - p.bits.length)) trie trie' := by
  have hlen : p.bits.length ≤ INITIAL_BITS := p.length_bits ▸ hp
  rw [insertSweep, Nat.one_shiftLeft, ← p.length_bits]
  refine Run.foldlM_range (Swept _ _ _ · trie ·) (swept_zero _ _ _ trie) fun i t hi ht => ?_
  obtain ⟨x, hindex, hx, hpre⟩ := exists_initIndex_add hlen hi
  have hentry : Holds (IpAddr.LENGTH α - INITIAL_BITS) T.table (indexBits x) (t.init x) := by
    rw [ht.rest x (by omega)]
    exact h.entries x
  obtain ⟨e, m, hins, hop, he⟩ := insertEntry_spec (h.succeeds.of_op_eq ht.op)
    (length_indexBits x) (sub_INITIAL_BITS_le α) hentry hpre nhi
  refine ⟨t.setEntry x e m, ?_, ht.step x hx hop he⟩
  rw [p.spells.indexOf_eq hlen, hindex]
  simp only [hins, Option.bind_eq_bind, Option.bind_some]

/-- **`tbm_insert_prefix` is an insert into the map.** -/
theorem tbmInsert_spec (h : Pushes trie T) {p : Prefix α} (hp : 1 ≤ p.cidr) (nhi : Nhi) :
    ∃ trie', tbmInsert trie p.ip p.cidr nhi = some (trie', 0) ∧ Pushes trie' (T.insert p nhi) := by
  obtain ⟨upAux, upM, ret, haux, hmir⟩ := h.aux.insertPrefix p nhi
  have hpos : ∀ q ∈ T.insert p nhi, 1 ≤ q.cidr := by
    intro q hq
    rcases Finmap.mem_insert.mp hq with hqp | hq
    · rw [hqp]
      exact hp
    · exact h.pos q hq
  rw [tbmInsert, if_neg (by omega)]
  by_cases hshort : p.cidr ≤ INITIAL_BITS
  · obtain ⟨trie', hloop, hswept⟩ := insertSweep_spec h hshort nhi
    refine ⟨{ trie' with upAux := upAux, upM := upM }, ?_, hmir, fun y => ?_,
      h.succeeds.of_op_eq hswept.op, hpos⟩
    · rw [if_pos hshort, hloop, Option.bind_eq_bind, Option.bind_some, hswept.upAux, hswept.upM,
        haux]
      rfl
    · rw [table_insert]
      exact hswept.holds (p.length_bits ▸ hshort) h.entries y
  · obtain ⟨x, u, hindex, hbits, hu, huw⟩ := exists_entry (not_le.mp hshort)
    obtain ⟨e, m, hins, hop, he⟩ := insertChild_spec h.succeeds (length_indexBits x)
      (sub_INITIAL_BITS_le α) (h.entries x) h.table_nil (hbits ▸ p.spells) hu huw nhi
    rw [← hbits, p.length_bits] at hins
    refine ⟨{ trie.setEntry x e m with upAux := upAux, upM := upM }, ?_, hmir, fun y => ?_,
      h.succeeds.of_op_eq hop, hpos⟩
    · rw [if_neg hshort, hindex]
      simp only [hins, Option.bind_eq_bind, Option.bind_some]
      rw [TbmTrie.setEntry, haux]
      rfl
    · rw [table_insert, hbits]
      exact holds_setEntry hu h.entries he m y

/-- Up to the `i`-th entry, the prefix was the longest one somewhere. -/
def ExposedBelow (T : Stored α) (p : Prefix α) (i : ℕ) : Prop :=
  ∃ x : Fin (2 ^ INITIAL_BITS), p.bits <+: indexBits x ∧
    (x : ℕ) < value p.bits * 2 ^ (INITIAL_BITS - p.bits.length) + i ∧
    coverLength T.table (indexBits x) ≤ p.cidr

/-- There is an entry in which no stored prefix hides this one. -/
def Exposed (T : Stored α) (p : Prefix α) : Prop :=
  ∃ x, p.bits <+: indexBits x ∧ coverLength T.table (indexBits x) ≤ p.cidr

/-- What is left of the callback after `i` entries, and what it was called with. -/
def Handing (T : Stored α) (p : Prefix α) (v : Nhi) (d : Bool) (i : ℕ) (d' : Bool)
    (calls : List Nhi) : Prop :=
  (ExposedBelow T p i ∧ d' = false ∧ calls = if d then [v] else []) ∨
    (¬ ExposedBelow T p i ∧ d' = d ∧ calls = [])

theorem handing_zero {p : Prefix α} (hp : p.bits.length ≤ INITIAL_BITS) (T : Stored α) (v : Nhi)
    (d : Bool) : Handing T p v d 0 d [] := by
  refine .inr ⟨?_, rfl, rfl⟩
  intro h
  obtain ⟨x, hpre, hlt, -⟩ := h
  have hle := ((prefix_indexBits_iff hp x).mp hpre).1
  omega

theorem exposedBelow_succ {p : Prefix α} (T : Stored α) {i : ℕ} {x : Fin (2 ^ INITIAL_BITS)}
    (hx : (x : ℕ) = value p.bits * 2 ^ (INITIAL_BITS - p.bits.length) + i)
    (hpre : p.bits <+: indexBits x) :
    ExposedBelow T p (i + 1) ↔
      ExposedBelow T p i ∨ coverLength T.table (indexBits x) ≤ p.cidr := by
  constructor
  · intro h
    obtain ⟨y, hy, hlt, hle⟩ := h
    by_cases hyx : y = x
    · exact .inr (hyx ▸ hle)
    · have : (y : ℕ) ≠ x := fun h => hyx (Fin.ext h)
      exact .inl ⟨y, hy, by omega, hle⟩
  · intro h
    rcases h with ⟨y, hy, hlt, hle⟩ | hle
    · exact ⟨y, hy, by omega, hle⟩
    · exact ⟨x, hpre, by omega, hle⟩

theorem Handing.step {p : Prefix α} {v : Nhi} {d d' : Bool} {calls : List Nhi} {i : ℕ}
    {x : Fin (2 ^ INITIAL_BITS)} (h : Handing T p v d i d' calls)
    (hx : (x : ℕ) = value p.bits * 2 ^ (INITIAL_BITS - p.bits.length) + i)
    (hpre : p.bits <+: indexBits x) :
    ∃ d'' more, (if p.bits.length < coverLength T.table (indexBits x) then (d', [])
        else (false, if d' then [v] else [])) = (d'', more) ∧
      Handing T p v d (i + 1) d'' (calls ++ more) := by
  have hsucc := exposedBelow_succ T hx hpre
  rw [p.length_bits]
  by_cases hlt : p.cidr < coverLength T.table (indexBits x)
  · refine ⟨d', [], if_pos hlt, ?_⟩
    rw [Handing, hsucc, List.append_nil, or_iff_left (not_le.mpr hlt)]
    exact h
  · refine ⟨false, _, if_neg hlt, .inl ⟨hsucc.mpr (.inr (not_lt.mp hlt)), rfl, ?_⟩⟩
    rcases h with ⟨-, rfl, rfl⟩ | ⟨-, rfl, rfl⟩
    · simp
    · simp

/-- The loop of `tbm_delete_prefix`. -/
theorem deleteSweep_spec (h : Pushes trie T) {p : Prefix α} (hp : p.cidr ≤ INITIAL_BITS) {v : Nhi}
    (hv : T.lookup p = some v) (d : Bool) :
    ∃ st, deleteSweep trie p.ip p.cidr (coverLength T.table p.bits.dropLast)
        ((lpm T.table p.bits.dropLast).getD 0) d = some st ∧
      Swept (IpAddr.LENGTH α - INITIAL_BITS) (Function.update T.table p.bits none)
        (value p.bits * 2 ^ (INITIAL_BITS - p.bits.length))
        (2 ^ (INITIAL_BITS - p.bits.length)) trie st.1 ∧
      Handing T p v d (2 ^ (INITIAL_BITS - p.bits.length)) st.2.1 st.2.2 := by
  have hlen : p.bits.length ≤ INITIAL_BITS := p.length_bits ▸ hp
  have hbits : T.table p.bits = some v := (table_bits p).trans hv
  rw [deleteSweep, Nat.one_shiftLeft, ← p.length_bits]
  refine Run.foldlM_range (fun i (st : TbmTrie × Bool × List Nhi) =>
    Swept _ _ _ i trie st.1 ∧ Handing T p v d i st.2.1 st.2.2)
    ⟨swept_zero _ _ _ trie, handing_zero hlen T v d⟩ ?_
  intro i st hi hst
  obtain ⟨t, d', calls⟩ := st
  obtain ⟨ht, hhand⟩ := hst
  obtain ⟨x, hindex, hx, hpre⟩ := exists_initIndex_add hlen hi
  have hentry : Holds (IpAddr.LENGTH α - INITIAL_BITS) T.table (indexBits x) (t.init x) := by
    rw [ht.rest x (by omega)]
    exact h.entries x
  obtain ⟨e, m, hdel, hop, he⟩ := deleteEntry_spec (h.succeeds.of_op_eq ht.op)
    (length_indexBits x) (sub_INITIAL_BITS_le α) hentry h.table_nil hpre hbits d'
  obtain ⟨d'', more, hif, hhand'⟩ := hhand.step hx hpre
  refine ⟨(t.setEntry x e m, d'', calls ++ more), ?_, ht.step x hx hop he, hhand'⟩
  rw [hif] at hdel
  rw [p.spells.indexOf_eq hlen, hindex]
  simp only [hdel, Option.bind_eq_bind, Option.bind_some]

theorem exposedBelow_iff {p : Prefix α} (hp : p.bits.length ≤ INITIAL_BITS) (T : Stored α) :
    ExposedBelow T p (2 ^ (INITIAL_BITS - p.bits.length)) ↔ Exposed T p := by
  constructor
  · intro h
    obtain ⟨x, hpre, -, hle⟩ := h
    exact ⟨x, hpre, hle⟩
  · intro h
    obtain ⟨x, hpre, hle⟩ := h
    exact ⟨x, hpre, ((prefix_indexBits_iff hp x).mp hpre).2, hle⟩

/-- **`tbm_delete_prefix` is a delete from the map.**  The next hop is handed over once,
unless the prefix is a short one that is hidden in every entry. -/
theorem tbmDelete_spec (h : Pushes trie T) {p : Prefix α} {v : Nhi} (hv : T.lookup p = some v)
    (d : Bool) :
    ∃ trie' calls, tbmDelete trie p.ip p.cidr d = some (trie', 0, calls) ∧
      Pushes trie' (T.erase p) ∧
      (INITIAL_BITS < p.cidr ∨ Exposed T p → calls = if d then [v] else []) ∧
      (p.cidr ≤ INITIAL_BITS → ¬ Exposed T p → calls = []) := by
  have hmem := Finmap.mem_of_lookup_eq_some hv
  have hbits : T.table p.bits = some v := (table_bits p).trans hv
  obtain ⟨upAux, upM, ret, _, haux, hmir⟩ := h.aux.deletePrefix hmem false
  have hpos : ∀ q ∈ T.erase p, 1 ≤ q.cidr := fun q hq => h.pos q (Finmap.mem_erase.mp hq).2
  have hp := h.pos p hmem
  have hauxget : trie.upAux.get = T.table := h.aux.get
  rw [tbmDelete, if_neg (by omega)]
  by_cases hshort : p.cidr ≤ INITIAL_BITS
  · have hlen : p.bits.length ≤ INITIAL_BITS := p.length_bits ▸ hshort
    obtain ⟨⟨trie', d', calls⟩, hloop, hswept, hhand⟩ := deleteSweep_spec h hshort hv d
    rw [Handing, exposedBelow_iff hlen] at hhand
    refine ⟨{ trie' with upAux := upAux, upM := upM }, calls, ?_, ⟨hmir, fun y => ?_,
      h.succeeds.of_op_eq hswept.op, hpos⟩, fun hex => ?_, fun _ hex => ?_⟩
    · have hupAux : trie'.upAux = trie.upAux := hswept.upAux
      have hupM : trie'.upM = trie.upM := hswept.upM
      rw [if_pos hshort, h.detectOverlap_eq hshort]
      simp only [Option.bind_eq_bind, Option.bind_some, hloop, hupAux, hupM, haux]
    · rw [table_erase]
      exact hswept.holds hlen h.entries y
    · have hexp : Exposed T p := hex.resolve_left (by omega)
      rcases hhand with ⟨-, -, hcalls⟩ | ⟨hnot, -⟩
      · exact hcalls
      · exact absurd hexp hnot
    · rcases hhand with ⟨hexp, -⟩ | ⟨-, -, hcalls⟩
      · exact absurd hexp hex
      · exact hcalls
  · obtain ⟨x, u, hindex, hsplit, hu, huw⟩ := exists_entry (not_le.mp hshort)
    obtain ⟨e, m, hdel, hop, he⟩ := deleteChild_spec h.succeeds (length_indexBits x)
      (sub_INITIAL_BITS_le α) (h.entries x) h.table_nil h.aux.wf hauxget (hsplit ▸ p.spells) hu
      (hsplit ▸ hbits) d
    rw [← hsplit, p.length_bits] at hdel
    refine ⟨{ trie.setEntry x e m with upAux := upAux, upM := upM }, _, ?_, ⟨hmir, fun y => ?_,
      h.succeeds.of_op_eq hop, hpos⟩, fun _ => rfl, fun hle => absurd hle hshort⟩
    · rw [if_neg hshort, hindex]
      simp only [hdel, Option.bind_eq_bind, Option.bind_some]
      rw [TbmTrie.setEntry, haux]
      rfl
    · rw [table_erase, hsplit]
      exact holds_setEntry hu h.entries he m y

end Updates

end TreeBitmap
