import TreeBitmap.Trie
import TreeBitmap.Lib.Run
import Mathlib.Data.Finmap

/-!
# The stored prefixes

What a routing table is for, without any trie: a finite map from prefixes to next
hops, in which an address is answered by the longest prefix that matches it.  The
engines are to refine this map, and the results about them are stated in its terms.

## Main definitions

* `Prefix α` — an address and a length, with no bit set below the length.
* `Stored α` — the map.
* `Stored.Answers T a r` — `r` is the next hop of the longest match of `a`, or
  `NULL`.
* `Op α`, `storedMachine` — the updates; only a stored prefix may be deleted.
* `Stored.table` — the same map over bit strings, which is what a trie holds.
* `tenOps`, `docOps` — a run of each family.
-/

namespace TreeBitmap

open LongestMatch

variable {α : Type} [IpAddr α]

/-- A prefix: an address, of which the leading `cidr` bits count and the others are
zero. -/
structure Prefix (α : Type) [IpAddr α] where
  ip : α
  cidr : ℕ
  cidr_le : cidr ≤ IpAddr.LENGTH α
  host : (IpAddr.bits ip).drop cidr = List.replicate (IpAddr.LENGTH α - cidr) false

instance [DecidableEq α] : DecidableEq (Prefix α) := fun p q =>
  decidable_of_iff (p.ip = q.ip ∧ p.cidr = q.cidr) <| by
    cases p
    cases q
    simp

/-- The prefix matches the address: they agree in the leading bits. -/
def Prefix.Matches (p : Prefix α) (a : α) : Prop :=
  (IpAddr.bits a).take p.cidr = (IpAddr.bits p.ip).take p.cidr

/-- The stored prefixes, with their next hops. -/
abbrev Stored (α : Type) [IpAddr α] := Finmap fun _ : Prefix α => Nhi

section Answers

variable [DecidableEq α]

/-- What a lookup of `a` has to return: the next hop of the longest matching prefix,
or `NULL` if no prefix matches. -/
def Stored.Answers (T : Stored α) (a : α) (r : Nhi) : Prop :=
  (∃ p, T.lookup p = some r ∧ p.Matches a ∧ ∀ q ∈ T, q.Matches a → q.cidr ≤ p.cidr) ∨
    (∀ q ∈ T, ¬ q.Matches a) ∧ r = 0

/-- The next hops of a map, once for each stored prefix. -/
def Stored.values (T : Stored α) : Multiset Nhi := T.entries.map Sigma.snd

theorem values_insert_of_notMem {T : Stored α} {p : Prefix α} (hp : p ∉ T) (v : Nhi) :
    Stored.values (T.insert p v) = v ::ₘ T.values := by
  rw [Stored.values, Finmap.entries_insert_of_notMem hp, Multiset.map_cons, Stored.values]

theorem insert_erase {T : Stored α} {p : Prefix α} (v : Nhi) :
    (T.erase p).insert p v = T.insert p v := by
  apply Finmap.ext_lookup
  intro q
  by_cases hq : q = p
  · subst hq
    rw [Finmap.lookup_insert, Finmap.lookup_insert]
  · rw [Finmap.lookup_insert_of_ne _ hq, Finmap.lookup_insert_of_ne _ hq,
      Finmap.lookup_erase_ne hq]

theorem insert_of_lookup {T : Stored α} {p : Prefix α} {v : Nhi} (hv : T.lookup p = some v) :
    T.insert p v = T := by
  apply Finmap.ext_lookup
  intro q
  by_cases hq : q = p
  · subst hq
    rw [Finmap.lookup_insert, hv]
  · rw [Finmap.lookup_insert_of_ne _ hq]

theorem values_erase {T : Stored α} {p : Prefix α} {v : Nhi} (hv : T.lookup p = some v) :
    T.values = v ::ₘ Stored.values (T.erase p) := by
  rw [← values_insert_of_notMem Finmap.notMem_erase_self, insert_erase, insert_of_lookup hv]

theorem values_insert (T : Stored α) (p : Prefix α) (v : Nhi) :
    Stored.values (T.insert p v) + (T.lookup p).toList = T.values + {v} := by
  rcases hp : T.lookup p with _ | u
  · rw [values_insert_of_notMem (Finmap.lookup_eq_none.mp hp), Option.toList_none,
      Multiset.coe_nil, add_zero, add_comm, Multiset.singleton_add]
  · rw [← insert_erase, values_insert_of_notMem Finmap.notMem_erase_self, values_erase hp,
      Option.toList_some, Multiset.coe_singleton, ← Multiset.singleton_add,
      ← Multiset.singleton_add]
    abel

/-! ## Updates -/

/-- An update of the routing table.  The flag of a delete is whether there is a
`destroy_nhi`. -/
inductive Op (α : Type) [IpAddr α]
  | insert (p : Prefix α) (nhi : Nhi)
  | delete (p : Prefix α) (destroyNhi : Bool)

/-- The prefix an update is about. -/
def Op.prefix : Op α → Prefix α
  | .insert p _ => p
  | .delete p _ => p

/-- The map under updates.  Every delete has to name a stored prefix. -/
def storedMachine (α : Type) [IpAddr α] [DecidableEq α] : Run.Machine (Stored α) (Op α) where
  legal T
    | .insert _ _ => True
    | .delete p _ => p ∈ T
  step T
    | .insert p nhi => T.insert p nhi
    | .delete p _ => T.erase p

end Answers

/-! ## Prefixes as bit strings -/

/-- The bits of a prefix. -/
def Prefix.bits (p : Prefix α) : List Bool := (IpAddr.bits p.ip).take p.cidr

@[simp] theorem Prefix.length_bits (p : Prefix α) : p.bits.length = p.cidr := by
  rw [Prefix.bits, List.length_take, IpAddr.length_bits, min_eq_left p.cidr_le]

theorem Prefix.spells (p : Prefix α) : Spells p.ip p.bits := by
  rw [Spells, p.length_bits, ← p.host, Prefix.bits, List.take_append_drop]

theorem Prefix.bits_injective : Function.Injective (Prefix.bits (α := α)) := by
  intro p q h
  have hcidr : p.cidr = q.cidr := by rw [← p.length_bits, h, q.length_bits]
  have hip : p.ip = q.ip := by
    apply IpAddr.bits_injective
    rw [p.spells, q.spells, h]
  cases p
  cases q
  simp_all

/-- The prefix with the given bits. -/
def Prefix.ofBits (s : List Bool) (hs : s.length ≤ IpAddr.LENGTH α) : Prefix α where
  ip := IpAddr.ofBits s
  cidr := s.length
  cidr_le := hs
  host := by rw [IpAddr.bits_ofBits s hs, List.drop_left]

@[simp] theorem Prefix.bits_ofBits (s : List Bool) (hs : s.length ≤ IpAddr.LENGTH α) :
    (Prefix.ofBits s hs : Prefix α).bits = s := by
  rw [Prefix.bits, Prefix.ofBits, IpAddr.bits_ofBits s hs, List.take_left]

theorem Prefix.ofBits_bits (p : Prefix α) (h : p.bits.length ≤ IpAddr.LENGTH α) :
    Prefix.ofBits p.bits h = p :=
  Prefix.bits_injective (Prefix.bits_ofBits _ _)

theorem Prefix.matches_iff {p : Prefix α} {a : α} : p.Matches a ↔ p.bits <+: IpAddr.bits a := by
  rw [List.prefix_iff_eq_take, p.length_bits, Prefix.Matches, eq_comm]
  rfl

theorem take_bits_prefix_iff {p q : Prefix α} {k : ℕ} (hk : k ≤ p.cidr) :
    p.bits.take k <+: q.bits ↔
      k ≤ q.cidr ∧ (IpAddr.bits q.ip).take k = (IpAddr.bits p.ip).take k := by
  have hp : p.bits.take k = (IpAddr.bits p.ip).take k := by
    rw [Prefix.bits, List.take_take, min_eq_left hk]
  have hlen : (p.bits.take k).length = k := by
    rw [List.length_take, p.length_bits, min_eq_left hk]
  constructor
  · intro h
    have hle : k ≤ q.cidr := by
      have := h.length_le
      rwa [hlen, q.length_bits] at this
    refine ⟨hle, ?_⟩
    rw [List.prefix_iff_eq_take, hlen, hp, Prefix.bits, List.take_take, min_eq_left hle] at h
    exact h.symm
  · intro h
    obtain ⟨hle, heq⟩ := h
    rw [List.prefix_iff_eq_take, hlen, hp, Prefix.bits, List.take_take, min_eq_left hle, heq]

section Table

variable [DecidableEq α] {T : Stored α}

/-- The map over bit strings. -/
def Stored.table (T : Stored α) : Table Bool Nhi := fun s =>
  if h : s.length ≤ IpAddr.LENGTH α then T.lookup (Prefix.ofBits s h) else none

theorem table_bits (p : Prefix α) : T.table p.bits = T.lookup p := by
  have h : p.bits.length ≤ IpAddr.LENGTH α := p.length_bits ▸ p.cidr_le
  rw [Stored.table, dif_pos h, p.ofBits_bits]

theorem table_of_lt {s : List Bool} (h : IpAddr.LENGTH α < s.length) : T.table s = none :=
  dif_neg (by omega)

/-- Every string that is stored is the string of a prefix. -/
theorem exists_prefix_of_table {s : List Bool} {v : Nhi} (h : T.table s = some v) :
    ∃ p : Prefix α, p.bits = s ∧ T.lookup p = some v := by
  by_cases hs : s.length ≤ IpAddr.LENGTH α
  · refine ⟨Prefix.ofBits s hs, Prefix.bits_ofBits s hs, ?_⟩
    rwa [Stored.table, dif_pos hs] at h
  · rw [table_of_lt (by omega)] at h
    cases h

@[simp] theorem table_empty : Stored.table (∅ : Stored α) = fun _ => none := by
  funext s
  rw [Stored.table]
  split_ifs <;> rfl

/-- An update of the map is an update of the table. -/
theorem table_congr {T' : Stored α} {p : Prefix α} {x : Option Nhi} (hp : T'.lookup p = x)
    (hq : ∀ q, q ≠ p → T'.lookup q = T.lookup q) :
    T'.table = Function.update T.table p.bits x := by
  funext s
  by_cases hs : s.length ≤ IpAddr.LENGTH α
  · obtain ⟨q, rfl⟩ : ∃ q : Prefix α, q.bits = s := ⟨_, Prefix.bits_ofBits s hs⟩
    rw [table_bits]
    by_cases hqp : q = p
    · rw [hqp, Function.update_self, hp]
    · rw [Function.update_of_ne fun h => hqp (Prefix.bits_injective h), table_bits, hq q hqp]
  · have hne : s ≠ p.bits := by
      intro h
      rw [h, p.length_bits] at hs
      exact hs p.cidr_le
    rw [table_of_lt (by omega), Function.update_of_ne hne, table_of_lt (by omega)]

theorem table_insert (p : Prefix α) (v : Nhi) :
    Stored.table (T.insert p v) = Function.update T.table p.bits (some v) :=
  table_congr (Finmap.lookup_insert _) fun _ h => Finmap.lookup_insert_of_ne _ h

theorem table_erase (p : Prefix α) :
    Stored.table (T.erase p) = Function.update T.table p.bits none :=
  table_congr (Finmap.lookup_erase _ _) fun _ h => Finmap.lookup_erase_ne h

theorem mem_iff_table {p : Prefix α} : p ∈ T ↔ T.table p.bits ≠ none := by
  rw [table_bits, ne_eq, Finmap.lookup_eq_none, not_not]

/-- **The answer of a map is the longest-prefix match of its table.** -/
theorem answers_iff {a : α} {r : Nhi} :
    T.Answers a r ↔ r = (lpm T.table (IpAddr.bits a)).getD 0 := by
  have hprefix : ∀ {s : List Bool}, T.table s ≠ none → ∃ q : Prefix α, q ∈ T ∧ q.bits = s := by
    intro s hs
    obtain ⟨v, hv⟩ := Option.ne_none_iff_exists'.mp hs
    obtain ⟨q, rfl, hq⟩ := exists_prefix_of_table hv
    exact ⟨q, Finmap.mem_of_lookup_eq_some hq, rfl⟩
  rcases hl : lpm T.table (IpAddr.bits a) with _ | v
  · have hnone := lpm_eq_none_iff.mp hl
    have hno : ∀ q ∈ T, ¬ q.Matches a := fun q hq hm =>
      mem_iff_table.mp hq (hnone _ (Prefix.matches_iff.mp hm))
    constructor
    · intro h
      rcases h with ⟨p, hp, hm, -⟩ | ⟨-, hr⟩
      · exact absurd hm (hno p (Finmap.mem_of_lookup_eq_some hp))
      · exact hr
    · intro hr
      exact .inr ⟨hno, hr⟩
  · obtain ⟨s, hs, hv, hmax⟩ := lpm_eq_some_iff.mp hl
    obtain ⟨p, rfl, hp⟩ := exists_prefix_of_table hv
    have hpm := Prefix.matches_iff.mpr hs
    have hpmax : ∀ q ∈ T, q.Matches a → q.cidr ≤ p.cidr := by
      intro q hq hm
      have := hmax q.bits (Prefix.matches_iff.mp hm) (mem_iff_table.mp hq)
      rwa [q.length_bits, p.length_bits] at this
    constructor
    · intro h
      rcases h with ⟨q, hq, hm, hqmax⟩ | ⟨hno, -⟩
      · have hle := hqmax p (Finmap.mem_of_lookup_eq_some hp) hpm
        have hge := hpmax q (Finmap.mem_of_lookup_eq_some hq) hm
        have hbits : q.bits = p.bits := by
          refine List.IsPrefix.eq_of_length ?_ (by simp; omega)
          exact List.prefix_of_prefix_length_le (Prefix.matches_iff.mp hm) hs (by simp; omega)
        rw [Prefix.bits_injective hbits, hp] at hq
        exact (Option.some.inj hq).symm
      · exact absurd hpm (hno p (Finmap.mem_of_lookup_eq_some hp))
    · intro h
      rw [h]
      exact .inl ⟨p, hp, hpm, hpmax⟩

end Table

/-! ## Two runs -/

/-- `10.0.0.0/8`. -/
def tenSlash8 : Prefix IpV4 := ⟨0x0a000000#32, 8, by decide, by decide⟩

/-- `10.0.0.0/10`, which ends in the node of `10.0.0.0/8`. -/
def tenSlash10 : Prefix IpV4 := ⟨0x0a000000#32, 10, by decide, by decide⟩

/-- `10.0.0.0/24`, which is further below. -/
def tenSlash24 : Prefix IpV4 := ⟨0x0a000000#32, 24, by decide, by decide⟩

/-- Three nested prefixes: the first is overwritten, the second goes again. -/
def tenOps : List (Op IpV4) :=
  [.insert tenSlash8 1, .insert tenSlash24 2, .insert tenSlash10 3, .insert tenSlash8 4,
    .delete tenSlash10 true]

theorem legal_tenOps : (storedMachine IpV4).Legal ∅ tenOps :=
  ⟨trivial, trivial, trivial, trivial,
    Finmap.mem_insert.mpr (.inr (Finmap.mem_insert.mpr (.inl rfl))), trivial⟩

/-- `2001:db8::/32`. -/
def docSlash32 : Prefix IpV6 := ⟨⟨0x20010db800000000#64, 0⟩, 32, by decide, by decide⟩

/-- `2001:db8::/34`, which ends in the node of `2001:db8::/32`. -/
def docSlash34 : Prefix IpV6 := ⟨⟨0x20010db800000000#64, 0⟩, 34, by decide, by decide⟩

/-- `2001:db8::/48`, which is further below. -/
def docSlash48 : Prefix IpV6 := ⟨⟨0x20010db800000000#64, 0⟩, 48, by decide, by decide⟩

/-- `::1/128`. -/
def loopback : Prefix IpV6 := ⟨⟨0, 1⟩, 128, by decide, by decide⟩

/-- The same with the prefixes of `2001:db8::`, and `::1/128`. -/
def docOps : List (Op IpV6) :=
  [.insert docSlash32 1, .insert docSlash48 2, .insert loopback 5, .insert docSlash34 3,
    .insert docSlash32 4, .delete docSlash34 true]

theorem legal_docOps : (storedMachine IpV6).Legal ∅ docOps :=
  ⟨trivial, trivial, trivial, trivial, trivial,
    Finmap.mem_insert.mpr (.inr (Finmap.mem_insert.mpr (.inl rfl))), trivial⟩

end TreeBitmap
