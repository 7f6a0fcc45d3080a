import TreeBitmap.Destroy
import TreeBitmap.InitTable

/-!
# What is handed to `destroy_nhi`

A delete hands over the next hop of the prefix from the first entry in which it finds
it.  A short prefix may be hidden in all of its entries by longer ones, and is then
handed over by nobody.

`tbmv6_destroy_trie` skips an entry if its whole flag word is zero, where
`tbm_destroy_trie` looks at `INIT_HAS_A_CHILD`.  An entry with a bare next hop has a
prefix length in its flag word, and is taken for a trie.

## Main definitions

* `Stored.Shows T p` — there is an entry in which nothing hides the prefix.
* `delete_hands_iff_shows` — **when a delete hands its next hop over**.
* `Destroys` — the engine is destroyed as it should be.
* `tbmv6_destroyTrie_destroys_iff` — **when `tbmv6_destroy_trie` does that**.
-/

namespace TreeBitmap

open BitString LongestMatch IpAddr

/-! ## Deletes -/

section Delete

variable {α : Type} [IpAddr α] [DecidableEq α] {T : Stored α} {p : Prefix α}

/-- A prefix longer than 13 bits, or one that is the longest stored prefix of up to 13
bits somewhere. -/
def Stored.Shows (T : Stored α) (p : Prefix α) : Prop :=
  INITIAL_BITS < p.cidr ∨ ∃ x, p.Covers x ∧ ∀ q ∈ T, q.Covers x → q.cidr ≤ p.cidr

theorem coverLength_le_iff {x : Fin (2 ^ INITIAL_BITS)} {k : ℕ} :
    coverLength T.table (indexBits x) ≤ k ↔ ∀ q ∈ T, q.Covers x → q.cidr ≤ k := by
  rw [coverLength]
  rcases hl : longest T.table (indexBits x) with _ | ⟨s, v⟩
  · have hno := not_covers_iff.mpr hl
    exact ⟨fun _ q hq hcov => absurd hcov (hno q hq), fun _ => Nat.zero_le k⟩
  · obtain ⟨q, rfl, hq⟩ := exists_isCover hl
    constructor
    · intro h q' hq' hcov
      exact (hq.longest q' hq' hcov).trans (q.length_bits ▸ h)
    · intro h
      change q.bits.length ≤ k
      rw [q.length_bits]
      exact h q (Finmap.mem_of_lookup_eq_some hq.lookup) hq.covers

theorem shows_iff : T.Shows p ↔ INITIAL_BITS < p.cidr ∨ Exposed T p := by
  refine or_congr_right (exists_congr fun x => ?_)
  rw [Prefix.covers_iff, coverLength_le_iff]

theorem exists_run_hands_iff {ops : List (Op α)} (hops : (tbmMachine α).Legal ∅ ops) :
    ∃ trie, ops.foldlM leafStep tbmInitTrie = some trie ∧
      ∀ p v, ((tbmMachine α).exec ∅ ops).lookup p = some v →
        ∃ trie' calls, tbmDelete trie p.ip p.cidr true = some (trie', 0, calls) ∧
          (calls = [v] ↔ ((tbmMachine α).exec ∅ ops).Shows p) := by
  obtain ⟨trie, hrun, hpush⟩ := exists_leafStep_run hops
  refine ⟨trie, hrun, fun p v hv => ?_⟩
  obtain ⟨trie', calls, hdel, -, honce, hnever⟩ := tbmDelete_spec hpush hv true
  refine ⟨trie', calls, hdel, ?_⟩
  rw [shows_iff]
  constructor
  · intro hcalls
    by_contra hnot
    rw [not_or, not_lt] at hnot
    rw [hnever hnot.1 hnot.2] at hcalls
    cases hcalls
  · exact honce

end Delete

/-- **A delete hands its next hop to `destroy_nhi`, once, just if the prefix shows.** -/
theorem delete_hands_iff_shows {ops : List (Op IpV4)} {opsv6 : List (Op IpV6)}
    (hops : (tbmMachine IpV4).Legal ∅ ops) (hopsv6 : (tbmMachine IpV6).Legal ∅ opsv6) :
    (∃ trie, ops.foldlM tbmStep tbmInitTrie = some trie ∧
      ∀ p v, ((tbmMachine IpV4).exec ∅ ops).lookup p = some v →
        ∃ trie' calls, tbmDeletePrefix trie p.ip p.cidr true = some (trie', 0, calls) ∧
          (calls = [v] ↔ ((tbmMachine IpV4).exec ∅ ops).Shows p)) ∧
    (∃ trie, opsv6.foldlM tbmv6Step tbmInitTrie = some trie ∧
      ∀ p v, ((tbmMachine IpV6).exec ∅ opsv6).lookup p = some v →
        ∃ trie' calls, tbmv6DeletePrefix trie p.ip p.cidr true = some (trie', calls) ∧
          (calls = [v] ↔ ((tbmMachine IpV6).exec ∅ opsv6).Shows p)) := by
  rw [tbmStep_eq, tbmv6Step_eq]
  refine ⟨exists_run_hands_iff hops, ?_⟩
  obtain ⟨trie, hrun, hhands⟩ := exists_run_hands_iff hopsv6
  refine ⟨trie, hrun, fun p v hv => ?_⟩
  obtain ⟨trie', calls, hdel, hiff⟩ := hhands p v hv
  refine ⟨trie', calls, ?_, hiff⟩
  rw [tbmv6DeletePrefix, hdel]
  rfl

theorem delete_hands_iff_shows_insert :
    (∃ trie, tenOps.foldlM tbmStep tbmInitTrie = some trie ∧
      ∀ p v, ((tbmMachine IpV4).exec ∅ tenOps).lookup p = some v →
        ∃ trie' calls, tbmDeletePrefix trie p.ip p.cidr true = some (trie', 0, calls) ∧
          (calls = [v] ↔ ((tbmMachine IpV4).exec ∅ tenOps).Shows p)) ∧
    (∃ trie, docOps.foldlM tbmv6Step tbmInitTrie = some trie ∧
      ∀ p v, ((tbmMachine IpV6).exec ∅ docOps).lookup p = some v →
        ∃ trie' calls, tbmv6DeletePrefix trie p.ip p.cidr true = some (trie', calls) ∧
          (calls = [v] ↔ ((tbmMachine IpV6).exec ∅ docOps).Shows p)) :=
  delete_hands_iff_shows engine_legal_tenOps engine_legal_docOps

/-- `10.0.0.0/12`, and the two prefixes that hide it. -/
def tenSlash12 : Prefix IpV4 := ⟨0x0a000000#32, 12, by decide, by decide⟩

/-- `10.0.0.0/13`. -/
def tenSlash13 : Prefix IpV4 := ⟨0x0a000000#32, 13, by decide, by decide⟩

/-- `10.8.0.0/13`. -/
def ten8Slash13 : Prefix IpV4 := ⟨0x0a080000#32, 13, by decide, by decide⟩

/-- With both halves of `10.0.0.0/12` stored as well, its next hop is not handed over. -/
theorem delete_hands_nothing_tenSlash12 :
    ¬ ∀ ops, (tbmMachine IpV4).Legal ∅ ops → ∀ trie, ops.foldlM tbmStep tbmInitTrie = some trie →
      ∀ p v, ((tbmMachine IpV4).exec ∅ ops).lookup p = some v → ∀ trie' ret calls,
        tbmDeletePrefix trie p.ip p.cidr true = some (trie', ret, calls) → calls = [v] := by
  intro h
  let ops : List (Op IpV4) := [.insert tenSlash12 1, .insert tenSlash13 2, .insert ten8Slash13 3]
  have hlegal : (tbmMachine IpV4).Legal ∅ ops :=
    ⟨⟨by decide, trivial⟩, ⟨by decide, trivial⟩, ⟨by decide, trivial⟩, trivial⟩
  let T : Stored IpV4 :=
    (((∅ : Stored IpV4).insert tenSlash12 1).insert tenSlash13 2).insert ten8Slash13 3
  have hlookup : T.lookup tenSlash12 = some 1 := by
    rw [Finmap.lookup_insert_of_ne _ (by decide), Finmap.lookup_insert_of_ne _ (by decide),
      Finmap.lookup_insert]
  have hleft : tenSlash13 ∈ T := Finmap.mem_insert.mpr (.inr (Finmap.mem_insert.mpr (.inl rfl)))
  have hright : ten8Slash13 ∈ T := Finmap.mem_insert.mpr (.inl rfl)
  obtain ⟨trie, hrun, hhands⟩ := exists_run_hands_iff hlegal
  obtain ⟨trie', calls, hdel, hiff⟩ := hhands tenSlash12 1 hlookup
  have hshows : T.Shows tenSlash12 :=
    hiff.mp (h ops hlegal trie (tbmStep_eq ▸ hrun) tenSlash12 1 hlookup trie' 0 calls hdel)
  rcases hshows with hlt | ⟨x, hcov, hmax⟩
  · exact absurd hlt (by decide)
  · obtain ⟨r, hr⟩ := Prefix.covers_iff.mp hcov
    have hlen := congrArg List.length hr
    rw [List.length_append, length_indexBits, tenSlash12.length_bits] at hlen
    obtain ⟨b, rfl⟩ : ∃ b, r = [b] := List.length_eq_one_iff.mp (Nat.add_left_cancel hlen)
    have hthirteen : ∀ q ∈ T, q.bits = indexBits x → q.cidr ≤ 12 := fun q hq hbits =>
      hmax q hq (Prefix.covers_iff.mpr (hbits ▸ List.prefix_refl _))
    cases b with
    | false => exact absurd (hthirteen tenSlash13 hleft (hr ▸ by decide)) (by decide)
    | true => exact absurd (hthirteen ten8Slash13 hright (hr ▸ by decide)) (by decide)

/-! ## Destroy -/

section Destroy

variable {α : Type} [IpAddr α] [DecidableEq α] {T : Stored α} {trie : TbmTrie}

/-- The engine has been destroyed as it should be: only entries with a trie were
entered, and `destroy_nhi` was called once for each stored prefix, unless its next hop
is `NULL`. -/
structure Destroys (trie : TbmTrie) (T : Stored α) (d : Bool) (r : Destroyed) : Prop where
  visited : ∀ x ∈ r.visited, (trie.init x).hasChild = true
  calls : (r.calls : Multiset Nhi) = handed d T.values

theorem prefixFlags_eq_zero_iff : ∀ k ≤ INITIAL_BITS, prefixFlags k = 0 ↔ k = 0 := by decide

/-- The loop goes through if no entry is entered that has not got a trie. -/
theorem destroyEntries_spec (h : Pushes trie T) {skip : InitNode → Bool}
    (hskip : ∀ x, skip (trie.init x) = false → (trie.init x).hasChild = true) :
    ∃ st, destroyEntries skip trie = some st ∧
      ∀ x ∈ st.2, (trie.init x).hasChild = true := by
  rw [destroyEntries]
  refine Run.foldlM_range
    (fun _ (st : Mm × List (Fin (2 ^ INITIAL_BITS))) => ∀ x ∈ st.2, (trie.init x).hasChild = true)
    (fun x hx => absurd hx List.not_mem_nil) fun i st hi hst => ?_
  obtain ⟨m, visited⟩ := st
  simp only [initIndex_of_lt hi, Option.bind_eq_bind, Option.bind_some]
  split
  next => exact ⟨(m, visited), rfl, hst⟩
  next hnot =>
    have hchild := hskip ⟨i, hi⟩ (Bool.eq_false_iff.mpr hnot)
    obtain ⟨m', calls, hcall, -⟩ := destroySubtrie_spec m (h.wf_of_hasChild hchild)
      (level_of_le (sub_INITIAL_BITS_le α)) false
    refine ⟨(m', visited ++ [⟨i, hi⟩]), by rw [hcall]; rfl, fun x hx => ?_⟩
    rcases List.mem_append.mp hx with hx | hx
    · exact hst x hx
    · exact List.mem_singleton.mp hx ▸ hchild

/-- All entries are entered that are not skipped. -/
theorem mem_of_destroyEntries {skip : InitNode → Bool} {st : Mm × List (Fin (2 ^ INITIAL_BITS))}
    (h : destroyEntries skip trie = some st) {x : Fin (2 ^ INITIAL_BITS)}
    (hx : skip (trie.init x) = false) : x ∈ st.2 := by
  have hall := Run.foldlM_range_of_eq_some
    (fun i (st : Mm × List (Fin (2 ^ INITIAL_BITS))) =>
      ∀ y : Fin (2 ^ INITIAL_BITS), (y : ℕ) < i → skip (trie.init y) = false → y ∈ st.2)
    (fun y hy => absurd hy (Nat.not_lt_zero y)) (fun i st st' hi hst hround y hy hskip => ?_) h
  · exact hall x x.isLt hx
  · obtain ⟨m, visited⟩ := st
    simp only [initIndex_of_lt hi, Option.bind_eq_bind, Option.bind_some] at hround
    rcases Nat.lt_succ_iff_lt_or_eq.mp hy with hlt | heq
    · split at hround
      next =>
        cases hround
        exact hst y hlt hskip
      next =>
        obtain ⟨⟨m', calls⟩, -, hst'⟩ := Option.bind_eq_some_iff.mp hround
        cases hst'
        exact List.mem_append_left _ (hst y hlt hskip)
    · have hyi : y = ⟨i, hi⟩ := Fin.ext heq
      rw [← hyi, hskip] at hround
      obtain ⟨⟨m', calls⟩, hcall, hst'⟩ := Option.bind_eq_some_iff.mp hround
      cases hst'
      exact List.mem_append_right _ List.mem_cons_self

/-- The engine is destroyed as it should be just if the test skips all entries that
have not got a trie. -/
theorem exists_destroys_iff (h : Pushes trie T) (skip : InitNode → Bool) (d : Bool) :
    (∃ r, destroyTrie skip trie d = some r ∧ Destroys trie T d r) ↔
      ∀ x, skip (trie.init x) = false → (trie.init x).hasChild = true := by
  constructor
  · intro hr x hx
    obtain ⟨r, hdestroy, hspec⟩ := hr
    obtain ⟨up, -, hrest⟩ := Option.bind_eq_some_iff.mp hdestroy
    obtain ⟨st, hloop, hst⟩ := Option.bind_eq_some_iff.mp hrest
    cases hst
    exact hspec.visited x (mem_of_destroyEntries hloop hx)
  · intro hskip
    obtain ⟨upM, calls, haux, hrel⟩ := destroySubtrie_spec trie.upM h.aux.wf (level_zero α) d
    obtain ⟨st, hloop, hvisited⟩ := destroyEntries_spec h hskip
    refine ⟨⟨st.1, upM, calls, st.2⟩, ?_, hvisited, ?_⟩
    · rw [destroyTrie, haux, Option.bind_eq_bind, Option.bind_some, hloop]
      rfl
    · rw [hrel.calls, h.aux.nhis]

/-- An entry without a trie has an empty flag word just if nothing covers it. -/
theorem Pushes.flags_eq_zero_iff (h : Pushes trie T) {x : Fin (2 ^ INITIAL_BITS)}
    (hx : (trie.init x).hasChild = false) :
    (trie.init x).flags = 0 ↔ ∀ p ∈ T, ¬ p.Covers x := by
  have hk := coverLength_indexBits_le T.table x
  have hcover : coverLength T.table (indexBits x) = 0 ↔ ∀ p ∈ T, ¬ p.Covers x := by
    rw [← Nat.le_zero, coverLength_le_iff]
    refine forall₂_congr fun p hp => imp_congr_right fun _ => iff_false_intro ?_
    exact Nat.not_le_of_lt (h.pos p hp)
  obtain ⟨flags, -⟩ := (h.entries x).of_not_hasChild hk hx
  rw [← hcover, flags]
  exact prefixFlags_eq_zero_iff _ hk

theorem exists_run_destroys_iff {ops : List (Op α)} (hops : (tbmMachine α).Legal ∅ ops) :
    ∃ trie, ops.foldlM leafStep tbmInitTrie = some trie ∧ ∀ d,
      ((∃ r, destroyTrie (fun e => e.flags == 0) trie d = some r ∧
        Destroys trie ((tbmMachine α).exec ∅ ops) d r) ↔
        ∀ p ∈ (tbmMachine α).exec ∅ ops, ∀ x, p.Covers x → (trie.init x).hasChild = true) := by
  obtain ⟨trie, hrun, hpush⟩ := exists_leafStep_run hops
  refine ⟨trie, hrun, fun d => ?_⟩
  rw [exists_destroys_iff hpush]
  constructor
  · intro hskip p hp x hcov
    by_contra hnot
    rw [Bool.not_eq_true] at hnot
    have hflags : (trie.init x).flags ≠ 0 := fun hzero =>
      (hpush.flags_eq_zero_iff hnot).mp hzero p hp hcov
    rw [hskip x (beq_false_of_ne hflags)] at hnot
    cases hnot
  · intro hall x hflags
    by_contra hnot
    rw [Bool.not_eq_true] at hnot
    refine absurd ((hpush.flags_eq_zero_iff hnot).mpr fun p hp hcov => ?_) (ne_of_beq_false hflags)
    rw [hall p hp x hcov] at hnot
    cases hnot

end Destroy

/-- **`tbmv6_destroy_trie` enters tries only, just if it finds no bare next hop**: every
entry that a stored prefix covers has got a trie. -/
theorem tbmv6_destroyTrie_destroys_iff (ops : List (Op IpV6))
    (hops : (tbmMachine IpV6).Legal ∅ ops) :
    ∃ trie, ops.foldlM tbmv6Step tbmInitTrie = some trie ∧ ∀ d,
      ((∃ r, tbmv6DestroyTrie trie d = some r ∧
        Destroys trie ((tbmMachine IpV6).exec ∅ ops) d r) ↔
        ∀ p ∈ (tbmMachine IpV6).exec ∅ ops, ∀ x, p.Covers x → (trie.init x).hasChild = true) := by
  rw [tbmv6Step_eq]
  exact exists_run_destroys_iff hops

theorem tbmv6_destroyTrie_destroys_iff_docSlash32 :
    ∃ trie, docOps.foldlM tbmv6Step tbmInitTrie = some trie ∧ ∀ d,
      ((∃ r, tbmv6DestroyTrie trie d = some r ∧
        Destroys trie ((tbmMachine IpV6).exec ∅ docOps) d r) ↔
        ∀ p ∈ (tbmMachine IpV6).exec ∅ docOps, ∀ x, p.Covers x →
          (trie.init x).hasChild = true) :=
  tbmv6_destroyTrie_destroys_iff _ engine_legal_docOps

/-! ### A bare next hop -/

section Bare

variable {α : Type} [IpAddr α] {e e' : InitNode} {m m' : Mm} {trie trie' : TbmTrie} {cidr : ℕ}
  {nhi : Nhi}

theorem hasChild_zero : InitNode.zero.hasChild = false := by decide

theorem flags_setPtr (e : InitNode) (a : Nhi) : (e.setPtr a).flags = e.flags := rfl

/-- A short prefix does not turn a bare next hop into a trie. -/
theorem hasChild_insertEntry (hcidr : cidr ≤ INITIAL_BITS)
    (h : insertEntry α e m cidr nhi = some (e', m')) : e'.hasChild = e.hasChild := by
  rw [insertEntry] at h
  split at h
  next hchild =>
    split at h
    next =>
      cases h
      rfl
    next =>
      obtain ⟨⟨node, m₁, ret⟩, -, h⟩ := Option.bind_eq_some_iff.mp h
      cases h
      rw [hchild]
      exact hasChild_trie hcidr rfl
  next hchild =>
    split at h
    next =>
      cases h
      rfl
    next =>
      obtain ⟨he, -⟩ := Prod.mk.inj (Option.some.inj h)
      rw [← he, Bool.eq_false_iff.mpr hchild]
      exact hasChild_pointer hcidr (flags_setPtr _ _)

theorem hasChild_insertSweep {ip : α} (hcidr : cidr ≤ INITIAL_BITS)
    (h : insertSweep trie ip cidr nhi = some trie') (x : Fin (2 ^ INITIAL_BITS)) :
    (trie'.init x).hasChild = (trie.init x).hasChild := by
  rw [insertSweep, Nat.one_shiftLeft] at h
  refine Run.foldlM_range_of_eq_some
    (fun _ (t : TbmTrie) => ∀ x, (t.init x).hasChild = (trie.init x).hasChild)
    (fun _ => rfl) (fun i t t' hi ht hround y => ?_) h x
  obtain ⟨z, hz, hround⟩ := Option.bind_eq_some_iff.mp hround
  obtain ⟨⟨e, m⟩, hentry, hround⟩ := Option.bind_eq_some_iff.mp hround
  cases hround
  rw [init_setEntry]
  by_cases hy : y = z
  · rw [hy, Function.update_self, hasChild_insertEntry hcidr hentry, ht]
  · rw [Function.update_of_ne hy, ht]

theorem hasChild_leafStep {p : Prefix α} (hp : p.cidr ≤ INITIAL_BITS)
    (h : leafStep trie (.insert p nhi) = some trie') (x : Fin (2 ^ INITIAL_BITS)) :
    (trie'.init x).hasChild = (trie.init x).hasChild := by
  obtain ⟨⟨trie₁, ret⟩, hins, h⟩ := Option.bind_eq_some_iff.mp h
  cases h
  rw [tbmInsert] at hins
  split at hins
  next =>
    cases hins
    rfl
  next =>
    obtain ⟨trie₁, hsweep, hins⟩ := Option.bind_eq_some_iff.mp hins
    obtain ⟨⟨upAux, upM, ret⟩, -, hins⟩ := Option.bind_eq_some_iff.mp hins
    cases hins
    exact hasChild_insertSweep hp hsweep x

/-- A short prefix covers an entry. -/
theorem exists_covers {p : Prefix α} (hp : p.cidr ≤ INITIAL_BITS) : ∃ x, p.Covers x := by
  obtain ⟨x, -, -, hpre⟩ := exists_initIndex_add (p.length_bits ▸ hp) (Nat.two_pow_pos _)
  exact ⟨x, Prefix.covers_iff.mpr hpre⟩

end Bare

/-- `fd00::/8`. -/
def ulaSlash8 : Prefix IpV6 := ⟨⟨0xfd00000000000000#64, 0#64⟩, 8, by decide, by decide⟩

/-- With `fd00::/8` alone, its next hop is taken for a trie. -/
theorem tbmv6_destroyTrie_ulaSlash8 :
    ¬ ∀ ops, (tbmMachine IpV6).Legal ∅ ops → ∀ trie, ops.foldlM tbmv6Step tbmInitTrie = some trie →
      ∀ d, ∃ r, tbmv6DestroyTrie trie d = some r ∧
        Destroys trie ((tbmMachine IpV6).exec ∅ ops) d r := by
  intro h
  have hlegal : (tbmMachine IpV6).Legal ∅ [Op.insert ulaSlash8 1] :=
    ⟨⟨by decide, trivial⟩, trivial⟩
  obtain ⟨trie, hrun, hiff⟩ := exists_run_destroys_iff hlegal
  have hmem : ulaSlash8 ∈ (∅ : Stored IpV6).insert ulaSlash8 1 := Finmap.mem_insert.mpr (.inl rfl)
  obtain ⟨x, hx⟩ := exists_covers (p := ulaSlash8) (by decide)
  have hbare := (hiff true).mp (h _ hlegal trie (tbmv6Step_eq ▸ hrun) true) _ hmem x hx
  have hstep : leafStep tbmInitTrie (Op.insert ulaSlash8 1) = some trie := by
    rw [List.foldlM_cons] at hrun
    obtain ⟨trie₁, hstep, hrest⟩ := Option.bind_eq_some_iff.mp hrun
    cases hrest
    exact hstep
  rw [hasChild_leafStep (by decide) hstep] at hbare
  exact absurd hbare (Bool.eq_false_iff.mp hasChild_zero)

end TreeBitmap
