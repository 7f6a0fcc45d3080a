import TreeBitmap.Canonical

/-!
# Traversal

`bitmap_mb_node_iter` and `print_mb_node_iter` go through a trie node by node and
rebuild the address of a prefix on the way, one stride at a time.  Which entries they
report, and how often, does not depend on the addresses: every string of the trie is
reported once, with the address that `rebuilt` makes of it.

The IPv4 function rebuilds every address exactly.  The IPv6 function calls
`lshift_ipv6` outside its documented range for the prefixes of length 128, whose last
two bits are then or-ed into the high word as well.

## Main definitions

* `rebuilt` — the address a traversal reports for a bit string.
* `mbNodeIter_spec` — a traversal reports every string once.
* `Stored.adding` — a map after the inserts of a list.
* `bitmap_run_iter`, `bitmapv6_run_print_iff` — what that says about the two engines.
-/

namespace TreeBitmap

open BitString LongestMatch Ranked

section Iter

variable {α : Type} {orShifted : α → ℕ → ℕ → α} {n : MbNode} {ip : α} {w c : ℕ}

theorem sub32_of_le {a b : ℕ} (hb : b ≤ a) (ha : a < 2 ^ 32) : sub32 a b = a - b := by
  rw [sub32]
  omega

/-- The address that a traversal reports for a bit string. -/
def rebuilt (orShifted : α → ℕ → ℕ → α) (ip : α) (w : ℕ) (s : List Bool) : α :=
  if s.length < 6 then orShifted ip (value s) (w - s.length)
  else rebuilt orShifted (orShifted ip (value (s.take 6)) (w - 6)) (w - 6) (s.drop 6)
termination_by s.length
decreasing_by
  rw [List.length_drop]
  omega

theorem rebuilt_of_lt {s : List Bool} (h : s.length < 6) :
    rebuilt orShifted ip w s = orShifted ip (value s) (w - s.length) := by
  rw [rebuilt, if_pos h]

theorem rebuilt_append {t : List Bool} (ht : t.length = 6) (s : List Bool) :
    rebuilt orShifted ip w (t ++ s) =
      rebuilt orShifted (orShifted ip (value t) (w - 6)) (w - 6) s := by
  rw [rebuilt, if_neg (by rw [List.length_append]; omega), ← ht, List.take_left, List.drop_left]

/-- The report on a bit string and its next hop. -/
def report (orShifted : α → ℕ → ℕ → α) (ip : α) (w c : ℕ) (e : List Bool × Nhi) : Report α :=
  (rebuilt orShifted ip w e.1, c + e.1.length, e.2)

/-- The calls are the reports on the entries of `n` that satisfy `p`, each once. -/
def Lists (orShifted : α → ℕ → ℕ → α) (ip : α) (w c : ℕ) (n : MbNode) (p : List Bool → Prop)
    (calls : List (Report α)) : Prop :=
  ∃ L : List (List Bool × Nhi), L.Nodup ∧ (∀ e, e ∈ L ↔ n.get e.1 = some e.2 ∧ p e.1) ∧
    calls = L.map (report orShifted ip w c)

theorem Lists.congr {p q : List Bool → Prop} {calls : List (Report α)}
    (h : Lists orShifted ip w c n p calls) (hpq : ∀ s, n.get s ≠ none → (p s ↔ q s)) :
    Lists orShifted ip w c n q calls := by
  obtain ⟨L, hnodup, hmem, hcalls⟩ := h
  refine ⟨L, hnodup, fun e => ?_, hcalls⟩
  rw [hmem]
  apply and_congr_right
  intro he
  exact hpq e.1 (by simp [he])

/-- Two parts without a common string make one. -/
theorem Lists.append {p q : List Bool → Prop} {calls more : List (Report α)}
    (h : Lists orShifted ip w c n p calls) (h' : Lists orShifted ip w c n q more)
    (hpq : ∀ s, p s → ¬ q s) : Lists orShifted ip w c n (fun s => p s ∨ q s) (calls ++ more) := by
  obtain ⟨L, hnodup, hmem, rfl⟩ := h
  obtain ⟨L', hnodup', hmem', rfl⟩ := h'
  refine ⟨L ++ L', ?_, fun e => ?_, (List.map_append).symm⟩
  · refine List.nodup_append'.mpr ⟨hnodup, hnodup', ?_⟩
    intro e he he'
    exact hpq e.1 ((hmem e).mp he).2 ((hmem' e).mp he').2
  · rw [List.mem_append, hmem, hmem', ← and_or_left]

/-- One string of the node itself. -/
theorem lists_singleton {t : List Bool} {v : Nhi} (ht : n.get t = some v) :
    Lists orShifted ip w c n (· = t) [report orShifted ip w c (t, v)] := by
  refine ⟨[(t, v)], List.nodup_singleton _, fun e => ?_, rfl⟩
  rw [List.mem_singleton]
  constructor
  · intro h
    subst h
    exact ⟨ht, rfl⟩
  · intro h
    obtain ⟨hv, he⟩ := h
    rw [he, ht] at hv
    exact Prod.ext he (Option.some.inj hv).symm

/-- The strings of a child are strings of its parent. -/
theorem Lists.of_kid {k : MbNode} {t : List Bool} {calls : List (Report α)} (ht : t.length = 6)
    (hk : n.kid (value t) = some k)
    (h : Lists orShifted (orShifted ip (value t) (w - 6)) (w - 6) (c + 6) k (fun _ => True) calls) :
    Lists orShifted ip w c n (t <+: ·) calls := by
  obtain ⟨L, hnodup, hmem, rfl⟩ := h
  have hget : ∀ s, n.get (t ++ s) = k.get s := by
    intro s
    rw [MbNode.get_append ht, hk]
    rfl
  refine ⟨L.map fun e => (t ++ e.1, e.2), ?_, fun e => ?_, ?_⟩
  · refine hnodup.map ?_
    intro e e' he
    obtain ⟨h1, h2⟩ := Prod.ext_iff.mp he
    exact Prod.ext (List.append_cancel_left h1) h2
  · rw [List.mem_map]
    constructor
    · intro h
      obtain ⟨e', he', rfl⟩ := h
      exact ⟨(hget e'.1).trans ((hmem e').mp he').1, List.prefix_append _ _⟩
    · intro h
      obtain ⟨hv, s, hs⟩ := h
      refine ⟨(s, e.2), (hmem _).mpr ⟨?_, trivial⟩, Prod.ext hs rfl⟩
      rw [← hget, hs]
      exact hv
  · rw [List.map_map]
    apply List.map_congr_left
    intro e _
    simp only [Function.comp_apply, report]
    rw [rebuilt_append ht, List.length_append, ht, add_assoc]

/-! ## The two loops -/

/-- The first loop at the string `t`. -/
theorem iterRule_spec (hn : n.Wf w) (hw : w < 2 ^ 32) (hc : c + w < 2 ^ 32) {t : List Bool}
    (ht : t.length < 6) {calls : List (Report α)}
    (h : Lists orShifted ip w c n (fun s => s.length < 6 ∧ inlPos s < inlPos t) calls) :
    ∃ calls', iterRule orShifted n ip w c calls t.length (value t) = some calls' ∧
      Lists orShifted ip w c n (fun s => s.length < 6 ∧ inlPos s < inlPos t + 1) calls' := by
  have hiff : ∀ s : List Bool, s.length < 6 ∧ inlPos s < inlPos t + 1 ↔
      (s.length < 6 ∧ inlPos s < inlPos t) ∨ s = t := by
    intro s
    constructor
    · intro hs
      rcases Nat.lt_succ_iff_lt_or_eq.mp hs.2 with hlt | heq
      · exact .inl ⟨hs.1, hlt⟩
      · exact .inr (inlPos_injective heq)
    · intro hs
      rcases hs with hs | rfl
      · exact ⟨hs.1, by omega⟩
      · exact ⟨ht, by omega⟩
  have hpos : countInlBitmap (value t) t.length = inlPos t := rfl
  simp only [iterRule, hpos]
  by_cases hmem : inlPos t ∈ members n.internal
  · obtain ⟨v, hv⟩ := exists_rule hn.layout hmem
    have hget : n.get t = some v := by rw [MbNode.get_of_lt ht, hv]
    have hle := hn.length_le hget
    refine ⟨calls ++ [report orShifted ip w c (t, v)], ?_, ?_⟩
    · rw [if_pos (testBitmap_iff.mpr hmem), deref_pointerToNhi hmem, hv, sub32_of_le hle hw, report,
        rebuilt_of_lt ht, Nat.mod_eq_of_lt (by omega)]
      rfl
    · refine (h.append (lists_singleton hget) ?_).congr fun s _ => (hiff s).symm
      intro s hs heq
      rw [heq] at hs
      exact lt_irrefl _ hs.2
  · refine ⟨calls, if_neg fun htest => hmem (testBitmap_iff.mp htest), h.congr ?_⟩
    intro s hs
    rw [hiff]
    constructor
    · exact .inl
    · intro h'
      rcases h' with h' | rfl
      · exact h'
      · exact absurd ((marks_internal hn.layout.rules_length s ht).mpr hs) hmem

/-- The body of the second loop. -/
def iterKid (orShifted : α → ℕ → ℕ → α) (n : MbNode) (ip : α) (w c : ℕ)
    (calls : List (Report α)) (pos : ℕ) : Option (List (Report α)) :=
  if testBitmap n.external pos then do
    let next ← n.child pos
    let more ← mbNodeIter orShifted next (orShifted ip pos (sub32 w STRIDE)) (sub32 w STRIDE)
      ((c + STRIDE) % 2 ^ 32)
    some (calls ++ more)
  else some calls

theorem mbNodeIter_eq (n : MbNode) (ip : α) (w c : ℕ) :
    mbNodeIter orShifted n ip w c = (do
      let calls ← (List.range STRIDE).foldlM (fun calls cidr =>
        (List.range (2 ^ cidr)).foldlM (fun calls bit =>
          iterRule orShifted n ip w c calls cidr bit) calls) []
      (List.range (2 ^ STRIDE)).foldlM (iterKid orShifted n ip w c) calls) := by
  rw [mbNodeIter]
  congr 1
  funext calls
  congr 1
  funext calls pos
  simp only [iterKid, countEnlBitmap]
  by_cases htest : testBitmap n.external pos
  · rw [if_pos htest, if_pos htest]
    split
    · rename_i next hnext
      rw [hnext]
      rfl
    · rename_i hnone
      rw [hnone]
      rfl
  · rw [if_neg htest, if_neg htest]

/-- What has been reported before the child at `i`. -/
def Before (i : ℕ) (s : List Bool) : Prop := s.length < 6 ∨ value (s.take 6) < i

theorem before_succ_iff {i : ℕ} {t : List Bool} (ht : t.length = 6) (hi : value t = i)
    (s : List Bool) : Before (i + 1) s ↔ Before i s ∨ t <+: s := by
  rw [Before, Before, or_assoc]
  constructor
  · intro h
    rcases h with h | h
    · exact .inl h
    · rcases Nat.lt_succ_iff_lt_or_eq.mp h with hlt | heq
      · exact .inr (.inl hlt)
      · by_cases hs : s.length < 6
        · exact .inl hs
        · refine .inr (.inr ?_)
          have hlen : (s.take 6).length = t.length := by
            rw [List.length_take]
            omega
          rw [← value_injective hlen (heq.trans hi.symm)]
          exact List.take_prefix 6 s
  · intro h
    rcases h with h | h | h
    · exact .inl h
    · exact .inr (by omega)
    · refine .inr ?_
      rw [List.prefix_iff_eq_take.mp h, ht] at hi
      omega

/-- The second loop at the child `i`: `hrec` is what the recursive call does. -/
theorem iterKid_spec (hn : n.Wf w) (hw : w < 2 ^ 32) (hc : c + w < 2 ^ 32) {i : ℕ} (hi : i < 64)
    {calls : List (Report α)} (h : Lists orShifted ip w c n (Before i) calls)
    (hrec : ∀ k ip, n.kid i = some k → ∃ more, mbNodeIter orShifted k ip (w - 6) (c + 6) =
      some more ∧ Lists orShifted ip (w - 6) (c + 6) k (fun _ => True) more) :
    ∃ calls', iterKid orShifted n ip w c calls i = some calls' ∧
      Lists orShifted ip w c n (Before (i + 1)) calls' := by
  obtain ⟨t, ht, rfl⟩ := exists_value_eq (v := i) (k := 6) hi
  have hiff := before_succ_iff (i := value t) ht rfl
  rw [iterKid]
  by_cases hmem : value t ∈ members n.external
  · obtain ⟨k, hk⟩ := exists_kid hn.layout hmem
    have hle := hn.le_of_kid hk
    obtain ⟨more, hiter, hmore⟩ := hrec k (orShifted ip (value t) (w - 6)) hk
    refine ⟨calls ++ more, ?_, ?_⟩
    · rw [if_pos (testBitmap_iff.mpr hmem), child_eq_kid hmem, hk, STRIDE_eq, sub32_of_le hle hw,
        Nat.mod_eq_of_lt (by omega)]
      simp only [Option.bind_eq_bind, Option.bind_some, hiter]
    · refine (h.append (hmore.of_kid ht hk) ?_).congr fun s _ => (hiff s).symm
      intro s hs hpre
      have hlen := hpre.length_le
      have htake := List.prefix_iff_eq_take.mp hpre
      rw [ht] at hlen htake
      rcases hs with hs | hs
      · omega
      · rw [← htake] at hs
        exact lt_irrefl _ hs
  · refine ⟨calls, if_neg fun htest => hmem (testBitmap_iff.mp htest), h.congr ?_⟩
    intro s hs
    rw [hiff]
    constructor
    · exact .inl
    · intro h'
      rcases h' with h' | ⟨u, rfl⟩
      · exact h'
      · have hnone : n.kid (value t) = none := by
          rw [MbNode.kid, lookup_of_notMem hmem]
        rw [MbNode.get_append ht, hnone] at hs
        exact absurd rfl hs

variable (orShifted) in
/-- **A traversal reports every string once.** -/
theorem mbNodeIter_spec (hn : n.Wf w) (hw : w < 2 ^ 32) (hc : c + w < 2 ^ 32) (ip : α) :
    ∃ calls, mbNodeIter orShifted n ip w c = some calls ∧
      Lists orShifted ip w c n (fun _ => True) calls := by
  induction w using Nat.strong_induction_on generalizing n ip c with
  | _ w ih =>
      have hstart : Lists orShifted ip w c n (fun s => s.length < 6 ∧ inlPos s < 0) [] :=
        ⟨[], List.nodup_nil, by simp, rfl⟩
      obtain ⟨calls, hrules, hown⟩ := foldlM_positions
        (fun i => Lists orShifted ip w c n fun s => s.length < 6 ∧ inlPos s < i) hstart
        fun t calls ht h => iterRule_spec hn hw hc ht h
      have hkids₀ : Lists orShifted ip w c n (Before 0) calls :=
        hown.congr fun s _ => ⟨fun hs => .inl hs.1, fun hs => by
          rcases hs with hs | hs
          · exact ⟨hs, inlPos_lt_bits hs⟩
          · exact absurd hs (Nat.not_lt_zero _)⟩
      obtain ⟨calls', hkids, hall⟩ := Run.foldlM_range (n := 2 ^ STRIDE)
        (fun i => Lists orShifted ip w c n (Before i)) hkids₀ fun i calls hi h =>
          iterKid_spec hn hw hc hi h fun k ip hk => by
            have hle := hn.le_of_kid hk
            exact ih (w - 6) (by omega) (hn.kids hk) (by omega) (by omega) ip
      refine ⟨calls', ?_, hall.congr fun s _ => ⟨fun _ => trivial, fun _ => ?_⟩⟩
      · rw [mbNodeIter_eq, hrules]
        exact hkids
      · by_cases hs : s.length < 6
        · exact .inl hs
        · refine .inr ?_
          have hlt := value_lt (s.take 6)
          rw [List.length_take, min_eq_left (by omega)] at hlt
          exact hlt

end Iter

/-! ## The entries of a map -/

section Entries

variable {α : Type} [IpAddr α] [DecidableEq α] {T : Stored α}

/-- The entries of a map, with an address for each prefix. -/
def Stored.reports (T : Stored α) (f : Prefix α → α) : Multiset (Report α) :=
  T.entries.map fun e => (f e.1, e.1.cidr, e.2)

omit [DecidableEq α] in
theorem reports_congr {f g : Prefix α → α} (h : ∀ p ∈ T, f p = g p) :
    T.reports f = T.reports g := by
  apply Multiset.map_congr rfl
  intro e he
  rw [h e.1 (Multiset.mem_map_of_mem Sigma.fst he)]

/-- The strings of the trie are the prefixes of the map. -/
theorem Mirrors.lists {st : MbNode × Mm} (h : Mirrors st T) {L : List (List Bool × Nhi)}
    (hnodup : L.Nodup) (hmem : ∀ e, e ∈ L ↔ st.1.get e.1 = some e.2) :
    (L : Multiset (List Bool × Nhi)) = T.entries.map fun e => (e.1.bits, e.2) := by
  have hinj : Function.Injective fun e : Σ _ : Prefix α, Nhi => (e.1.bits, e.2) := by
    intro e e' he
    obtain ⟨h1, h2⟩ := Prod.ext_iff.mp he
    exact Sigma.ext (Prefix.bits_injective h1) (heq_of_eq h2)
  refine (Multiset.Nodup.ext (Multiset.coe_nodup.mpr hnodup)
    (T.nodupKeys.nodup.map hinj)).mpr fun e => ?_
  rw [Multiset.mem_coe, hmem, h.get, Multiset.mem_map]
  constructor
  · intro hv
    obtain ⟨p, hp, hlookup⟩ := exists_prefix_of_table hv
    exact ⟨⟨p, e.2⟩, Finmap.mem_lookup_iff.mp hlookup, Prod.ext hp rfl⟩
  · intro hex
    obtain ⟨e', he', rfl⟩ := hex
    exact (table_bits e'.1).trans (Finmap.mem_lookup_iff.mpr he')

/-- **A traversal of a trie reports the entries of the map it holds.** -/
theorem Mirrors.mbNodeIter {st : MbNode × Mm} (h : Mirrors st T) (orShifted : α → ℕ → ℕ → α)
    (ip : α) :
    ∃ calls, mbNodeIter orShifted st.1 ip (IpAddr.LENGTH α) 0 = some calls ∧
      (calls : Multiset (Report α)) =
        T.reports fun p => rebuilt orShifted ip (IpAddr.LENGTH α) p.bits := by
  have hlen := IpAddr.length_le (α := α)
  obtain ⟨calls, hiter, L, hnodup, hmem, rfl⟩ :=
    mbNodeIter_spec orShifted (c := 0) h.wf (by omega) (by omega) ip
  refine ⟨_, hiter, ?_⟩
  have hL := h.lists hnodup fun e => (hmem e).trans (and_iff_left trivial)
  rw [← Multiset.map_coe, hL, Multiset.map_map, Stored.reports]
  apply Multiset.map_congr rfl
  intro e _
  rw [Function.comp_apply, report, Prefix.length_bits, zero_add]

end Entries

/-! ## The addresses -/

section Addresses

open IpAddr (ofBits)

variable {α : Type} [IpAddr α] {orShifted : α → ℕ → ℕ → α}

/-- If the strides are or-ed correctly into the address, then only the last step is left
to look at. -/
theorem rebuilt_eq (hstep : ∀ q t : List Bool, t.length = 6 → q.length + 6 < IpAddr.LENGTH α →
      orShifted (ofBits q) (value t) (IpAddr.LENGTH α - q.length - 6) = ofBits (q ++ t))
    {k : ℕ} {q s t : List Bool} (hs : s.length = 6 * k) (ht : t.length < 6)
    (hlen : q.length + s.length < IpAddr.LENGTH α) :
    rebuilt orShifted (ofBits q) (IpAddr.LENGTH α - q.length) (s ++ t) =
      orShifted (ofBits (q ++ s)) (value t) (IpAddr.LENGTH α - (q ++ s).length - t.length) := by
  induction k generalizing q s with
  | zero =>
      obtain rfl : s = [] := List.length_eq_zero_iff.mp hs
      rw [List.nil_append, List.append_nil, rebuilt_of_lt ht]
  | succ k ih =>
      obtain ⟨r, u, hr, rfl⟩ : ∃ r u : List Bool, r.length = 6 ∧ r ++ u = s :=
        ⟨s.take 6, s.drop 6, by rw [List.length_take]; omega, List.take_append_drop 6 s⟩
      rw [List.length_append] at hs hlen
      have hw : IpAddr.LENGTH α - q.length - 6 = IpAddr.LENGTH α - (q ++ r).length := by
        rw [List.length_append, hr]
        omega
      have hlen' : (q ++ r).length + u.length < IpAddr.LENGTH α := by
        rw [List.length_append]
        omega
      rw [List.append_assoc, rebuilt_append hr, hstep q r hr (by omega), hw,
        ih (by omega) hlen', List.append_assoc]

/-- The whole strides of a prefix, and what is left. -/
theorem Prefix.exists_strides (p : Prefix α) :
    ∃ s t : List Bool, p.bits = s ++ t ∧ s.length = 6 * (p.cidr / 6) ∧ t.length = p.cidr % 6 := by
  have hlen := p.length_bits
  have hdiv := Nat.div_add_mod p.cidr 6
  refine ⟨p.bits.take (6 * (p.cidr / 6)), p.bits.drop (6 * (p.cidr / 6)),
    (List.take_append_drop _ _).symm, ?_, ?_⟩
  · rw [List.length_take, hlen]
    omega
  · rw [List.length_drop, hlen]
    omega

theorem Prefix.ip_eq_ofBits (p : Prefix α) : p.ip = IpAddr.ofBits p.bits := by
  have h := p.ofBits_bits (p.length_bits ▸ p.cidr_le)
  exact (congrArg Prefix.ip h).symm

/-! ### IPv4 -/

theorem orShiftedV4_eq {q t : List Bool} (h : q.length + t.length ≤ LENGTH) :
    orShiftedV4 (toBitVec 32 q) (value t) (LENGTH - q.length - t.length) =
      toBitVec 32 (q ++ t) := by
  rw [LENGTH] at h ⊢
  rw [← toBitVec_append h, orShiftedV4]
  by_cases hn : 32 - q.length - t.length < 32
  · rw [shl_of_lt _ hn]
  · obtain rfl : t = [] := List.length_eq_zero_iff.mp (by omega)
    simp [shl]

/-- The IPv4 traversal rebuilds every address. -/
theorem rebuilt_orShiftedV4 (p : Prefix IpV4) : rebuilt orShiftedV4 0 LENGTH p.bits = p.ip := by
  obtain ⟨s, t, hst, hs, ht⟩ := p.exists_strides
  have hle : p.cidr ≤ LENGTH := p.cidr_le
  have hLENGTH : LENGTH = 32 := rfl
  have hlen : s.length + t.length ≤ LENGTH := by
    rw [← List.length_append, ← hst, p.length_bits]
    exact hle
  have hshort : ([] : List Bool).length + s.length < LENGTH := by
    rw [List.length_nil]
    omega
  have hstep : ∀ q r : List Bool, r.length = 6 → q.length + 6 < LENGTH →
      orShiftedV4 (toBitVec 32 q) (value r) (LENGTH - q.length - 6) = toBitVec 32 (q ++ r) := by
    intro q r hr hq
    rw [← hr]
    exact orShiftedV4_eq (by omega)
  have hstrides : rebuilt orShiftedV4 0 LENGTH (s ++ t) =
      orShiftedV4 (toBitVec 32 s) (value t) (LENGTH - s.length - t.length) :=
    rebuilt_eq (q := []) hstep hs (by omega) hshort
  rw [p.ip_eq_ofBits, hst, hstrides]
  exact orShiftedV4_eq hlen

/-! ### IPv6 -/

theorem IpV6.toBitVec_or (x y : IpV6) :
    IpV6.toBitVec ⟨x.iphi ||| y.iphi, x.iplo ||| y.iplo⟩ = x.toBitVec ||| y.toBitVec := by
  apply BitVec.eq_of_getLsbD_eq
  intro i _
  rw [BitVec.getLsbD_or, IpV6.getLsbD_toBitVec, IpV6.getLsbD_toBitVec, IpV6.getLsbD_toBitVec]
  split_ifs <;> rw [BitVec.getLsbD_or]

/-- A number in the low word. -/
theorem IpV6.toBitVec_low {v : ℕ} (hv : v < 2 ^ 64) :
    IpV6.toBitVec ⟨0, BitVec.ofNat 64 v⟩ = BitVec.ofNat 128 v := by
  apply BitVec.eq_of_toNat_eq
  have hv' : v < 2 ^ 128 := by omega
  simp only [IpV6.toBitVec, BitVec.toNat_append, BitVec.toNat_ofNat, Nat.mod_eq_of_lt hv,
    Nat.mod_eq_of_lt hv']
  simp

/-- In the documented range of `lshift_ipv6`, the bits are or-ed in where they belong. -/
theorem orShiftedV6_eq {q t : List Bool} (ht : t.length ≤ 6) (h : q.length + t.length < LENGTH_v6) :
    orShiftedV6 (IpV6.ofBitVec (toBitVec 128 q)) (value t) (LENGTH_v6 - q.length - t.length) =
      IpV6.ofBitVec (toBitVec 128 (q ++ t)) := by
  rw [LENGTH_v6] at h ⊢
  have hv : value t < 2 ^ 64 :=
    (value_lt t).trans_le (Nat.pow_le_pow_right (by decide) (by omega))
  apply IpV6.toBitVec_injective
  rw [orShiftedV6, IpV6.toBitVec_or, IpV6.toBitVec_ofBitVec, IpV6.toBitVec_ofBitVec,
    ← toBitVec_append h.le]
  by_cases hn : 128 - q.length - t.length < 128
  · rw [u8, Nat.mod_eq_of_lt (by omega), IpV6.toBitVec_lshiftIpv6 _ (by omega) hn,
      IpV6.toBitVec_low hv]
  · obtain rfl : q = [] := List.length_eq_zero_iff.mp (by omega)
    obtain rfl : t = [] := List.length_eq_zero_iff.mp (by omega)
    decide

/-- With a shift by `0`, the bits are or-ed into both words. -/
theorem orShiftedV6_zero (ip : IpV6) (bit : ℕ) :
    orShiftedV6 ip bit 0 =
      ⟨ip.iphi ||| BitVec.ofNat 64 bit, ip.iplo ||| BitVec.ofNat 64 bit⟩ := by
  simp [orShiftedV6, lshiftIpv6, shl, shr, u8]

/-- The address that `print_mb_node_iter` reports for a prefix. -/
def Prefix.printedIp (p : Prefix IpV6) : IpV6 :=
  if p.cidr = 128 then ⟨p.ip.iphi ||| (p.ip.iplo &&& 3), p.ip.iplo⟩ else p.ip

/-- The two bits at the end of an address are those of the last step. -/
theorem iplo_and_three {q : List Bool} {v : ℕ} (hq : q.length = 126) (hv : v < 2 ^ 2) :
    ((IpV6.ofBitVec (toBitVec 128 q)).iplo ||| BitVec.ofNat 64 v) &&& 3 = BitVec.ofNat 64 v := by
  have hthree : ∀ i, i < 64 → (3 : BitVec 64).getLsbD i = decide (i < 2) := by decide
  apply BitVec.eq_of_getLsbD_eq
  intro i hi
  rw [BitVec.getLsbD_and, BitVec.getLsbD_or, hthree i hi, BitVec.getLsbD_ofNat]
  by_cases h2 : i < 2
  · have hzero : (IpV6.ofBitVec (toBitVec 128 q)).iplo.getLsbD i = false := by
      rw [IpV6.ofBitVec, BitVec.getLsbD_extractLsb', Nat.zero_add, BitVec.getLsbD,
        toNat_toBitVec (by omega), hq, Nat.testBit_mul_two_pow]
      simp [h2]
    simp [hzero, h2]
  · have hhigh : v.testBit i = false :=
      Nat.testBit_lt_two_pow (hv.trans_le (Nat.pow_le_pow_right (by decide) (by omega)))
    simp [hhigh, h2]

/-- At the end of the address, the bits of the last step are or-ed into both words. -/
theorem orShiftedV6_last {q t : List Bool} (hq : q.length = 126) (ht : t.length = 2) {ip : IpV6}
    (hip : ip = IpV6.ofBitVec (toBitVec 128 (q ++ t))) :
    orShiftedV6 (IpV6.ofBitVec (toBitVec 128 q)) (value t) 0 =
      ⟨ip.iphi ||| (ip.iplo &&& 3), ip.iplo⟩ := by
  have hv : value t < 2 ^ 2 := ht ▸ value_lt t
  have happend := toBitVec_append (w := 128) (q := q) (t := t) (by omega)
  rw [hq, ht, BitVec.shiftLeft_zero] at happend
  have hor : ip = ⟨(IpV6.ofBitVec (toBitVec 128 q)).iphi ||| 0,
      (IpV6.ofBitVec (toBitVec 128 q)).iplo ||| BitVec.ofNat 64 (value t)⟩ := by
    apply IpV6.toBitVec_injective
    rw [hip, ← happend, IpV6.toBitVec_ofBitVec,
      IpV6.toBitVec_or _ ⟨0, BitVec.ofNat 64 (value t)⟩, IpV6.toBitVec_ofBitVec,
      IpV6.toBitVec_low (by omega)]
  have hhi : ip.iphi = (IpV6.ofBitVec (toBitVec 128 q)).iphi := by
    rw [hor]
    exact BitVec.or_zero
  have hlo : ip.iplo = (IpV6.ofBitVec (toBitVec 128 q)).iplo ||| BitVec.ofNat 64 (value t) := by
    rw [hor]
  rw [hhi, hlo, orShiftedV6_zero, iplo_and_three hq hv]

theorem rebuilt_orShiftedV6 (p : Prefix IpV6) :
    rebuilt orShiftedV6 ⟨0, 0⟩ LENGTH_v6 p.bits = p.printedIp := by
  obtain ⟨s, t, hst, hs, ht⟩ := p.exists_strides
  have hle : p.cidr ≤ LENGTH_v6 := p.cidr_le
  have hLENGTH : LENGTH_v6 = 128 := rfl
  have hlen : s.length + t.length = p.cidr := by
    rw [← List.length_append, ← hst, p.length_bits]
  have hshort : ([] : List Bool).length + s.length < LENGTH_v6 := by
    rw [List.length_nil]
    omega
  have hstep : ∀ q r : List Bool, r.length = 6 → q.length + 6 < LENGTH_v6 →
      orShiftedV6 (IpV6.ofBitVec (toBitVec 128 q)) (value r) (LENGTH_v6 - q.length - 6) =
        IpV6.ofBitVec (toBitVec 128 (q ++ r)) := by
    intro q r hr hq
    rw [← hr]
    exact orShiftedV6_eq hr.le (by omega)
  have hstrides : rebuilt orShiftedV6 ⟨0, 0⟩ LENGTH_v6 (s ++ t) =
      orShiftedV6 (IpV6.ofBitVec (toBitVec 128 s)) (value t) (LENGTH_v6 - s.length - t.length) :=
    rebuilt_eq (q := []) hstep hs (by omega) hshort
  have hip : p.ip = IpV6.ofBitVec (toBitVec 128 (s ++ t)) := hst ▸ p.ip_eq_ofBits
  rw [hst, hstrides, Prefix.printedIp, hip]
  by_cases hcidr : p.cidr = 128
  · have hzero : LENGTH_v6 - s.length - t.length = 0 := by omega
    rw [if_pos hcidr, hzero]
    exact orShiftedV6_last (by omega) (by omega) rfl
  · rw [if_neg hcidr]
    exact orShiftedV6_eq (by omega) (by omega)

end Addresses

/-! ## The lines of a dump -/

section Lines

variable {α : Type} [IpAddr α]

/-- The line of a dump for a prefix. -/
def lineOf (e : Prefix α × Nhi) : Report α := (e.1.ip, e.1.cidr, e.2)

theorem Prefix.eq_of_ip_eq {p q : Prefix α} (hip : p.ip = q.ip) (hcidr : p.cidr = q.cidr) :
    p = q := by
  cases p
  cases q
  simp only at hip hcidr
  subst hip hcidr
  rfl

theorem lineOf_injective : Function.Injective (lineOf : Prefix α × Nhi → Report α) := by
  intro e e' h
  simp only [lineOf, Prod.mk.injEq] at h
  exact Prod.ext (Prefix.eq_of_ip_eq h.1 h.2.1) h.2.2

variable [DecidableEq α] {T T' : Stored α} {p : Prefix α} {L : List (Prefix α × Nhi)}

theorem mem_reports {f : Prefix α → α} {c : Report α} :
    c ∈ T.reports f ↔ ∃ p v, T.lookup p = some v ∧ c = (f p, p.cidr, v) := by
  rw [Stored.reports, Multiset.mem_map]
  constructor
  · intro h
    obtain ⟨e, he, rfl⟩ := h
    exact ⟨e.1, e.2, Finmap.mem_lookup_iff.mpr he, rfl⟩
  · intro h
    obtain ⟨p, v, hv, rfl⟩ := h
    exact ⟨⟨p, v⟩, Finmap.mem_lookup_iff.mp hv, rfl⟩

/-- A dump that prints a prefix `p` as `φ p`, line by line. -/
theorem exists_lines {φ : Prefix α → Prefix α} (hcidr : ∀ p, (φ p).cidr = p.cidr)
    {calls : List (Report α)}
    (hcalls : (calls : Multiset (Report α)) = T.reports fun p => (φ p).ip) :
    ∃ L : List (Prefix α × Nhi), calls = L.map lineOf ∧
      ∀ e, e ∈ L ↔ ∃ p, T.lookup p = some e.2 ∧ φ p = e.1 := by
  have hmem : ∀ c, c ∈ calls ↔ ∃ p v, T.lookup p = some v ∧ c = lineOf (φ p, v) := by
    intro c
    rw [← Multiset.mem_coe, hcalls, mem_reports]
    simp only [lineOf, hcidr]
  have hrange : calls ∈ Set.range (List.map (lineOf : Prefix α × Nhi → Report α)) := by
    rw [Set.range_list_map]
    intro c hc
    obtain ⟨p, v, -, rfl⟩ := (hmem c).mp hc
    exact ⟨_, rfl⟩
  obtain ⟨L, rfl⟩ := hrange
  refine ⟨L, rfl, fun e => ?_⟩
  rw [← List.mem_map_of_injective lineOf_injective, hmem]
  constructor
  · intro h
    obtain ⟨p, v, hv, heq⟩ := h
    obtain rfl := lineOf_injective heq
    exact ⟨p, hv, rfl⟩
  · intro h
    obtain ⟨p, hv, heq⟩ := h
    exact ⟨p, e.2, hv, by rw [heq]⟩

/-- The map after the inserts of a list. -/
def Stored.adding (T : Stored α) (L : List (Prefix α × Nhi)) : Stored α :=
  L.foldl (fun T e => T.insert e.1 e.2) T

theorem mem_adding : p ∈ T.adding L ↔ p ∈ T ∨ ∃ v, (p, v) ∈ L := by
  induction L generalizing T with
  | nil => simp [Stored.adding]
  | cons e L ih =>
      have hstep : T.adding (e :: L) = Stored.adding (T.insert e.1 e.2) L := rfl
      rw [hstep, ih, Finmap.mem_insert]
      constructor
      · intro h
        rcases h with (rfl | h) | ⟨v, hv⟩
        · exact .inr ⟨e.2, List.mem_cons_self⟩
        · exact .inl h
        · exact .inr ⟨v, List.mem_cons_of_mem _ hv⟩
      · intro h
        rcases h with h | ⟨v, hv⟩
        · exact .inl (.inr h)
        · rcases List.mem_cons.mp hv with rfl | hv
          · exact .inl (.inl rfl)
          · exact .inr ⟨v, hv⟩

/-- What is added to a part of a map out of the map stays a part of it. -/
theorem lookup_adding (hL : ∀ e ∈ L, T'.lookup e.1 = some e.2)
    (hT : ∀ p v, T.lookup p = some v → T'.lookup p = some v) {v : Nhi}
    (h : (T.adding L).lookup p = some v) : T'.lookup p = some v := by
  induction L generalizing T with
  | nil => exact hT p v h
  | cons e L ih =>
      refine ih (fun e he => hL e (List.mem_cons_of_mem _ he)) (fun q u hq => ?_) h
      by_cases hqe : q = e.1
      · rw [hqe, Finmap.lookup_insert] at hq
        rw [hqe, hL e List.mem_cons_self, hq]
      · rw [Finmap.lookup_insert_of_ne _ hqe] at hq
        exact hT q u hq

/-- The entries of a map, in any order, make the map. -/
theorem adding_eq (hL : ∀ e, e ∈ L ↔ T.lookup e.1 = some e.2) :
    (∅ : Stored α).adding L = T := by
  apply Finmap.ext_lookup
  intro p
  cases hp : ((∅ : Stored α).adding L).lookup p with
  | some v =>
      refine (lookup_adding (fun e he => (hL e).mp he) (fun q u hq => ?_) hp).symm
      rw [Finmap.lookup_empty] at hq
      cases hq
  | none =>
      symm
      rw [Finmap.lookup_eq_none]
      intro hT
      obtain ⟨v, hv⟩ := Finmap.mem_iff.mp hT
      exact Finmap.lookup_eq_none.mp hp (mem_adding.mpr (.inr ⟨v, (hL (p, v)).mpr hv⟩))

end Lines

/-! ## The traversals of the two engines -/

/-- One report, inserted again. -/
def reinsert : MbNode × Mm → Report IpV4 → Option (MbNode × Mm)
  | (root, m), (ip, cidr, nhi) => do
      let (root, m, _) ← bitmapInsertPrefix root m ip cidr nhi
      some (root, m)

theorem Mirrors.reinsert {st : MbNode × Mm} {T : Stored IpV4} (h : Mirrors st T)
    (p : Prefix IpV4) (nhi : Nhi) :
    ∃ st', reinsert st (p.ip, p.cidr, nhi) = some st' ∧ Mirrors st' (T.insert p nhi) := by
  obtain ⟨root, m⟩ := st
  obtain ⟨root', m', ret, hins, hmir⟩ := h.insertPrefix p nhi
  refine ⟨(root', m'), ?_, hmir⟩
  simp only [TreeBitmap.reinsert, bitmapInsertPrefix, hins, Option.bind_eq_bind, Option.bind_some]

/-- Lines inserted one after the other. -/
theorem foldlM_reinsert {st : MbNode × Mm} {T : Stored IpV4} (h : Mirrors st T)
    (L : List (Prefix IpV4 × Nhi)) :
    ∃ st', (L.map lineOf).foldlM reinsert st = some st' ∧ Mirrors st' (T.adding L) := by
  induction L generalizing st T with
  | nil => exact ⟨st, rfl, h⟩
  | cons e L ih =>
      obtain ⟨st₁, hst₁, hmir₁⟩ := h.reinsert e.1 e.2
      obtain ⟨st', hfold, hmir⟩ := ih hmir₁
      refine ⟨st', ?_, hmir⟩
      rw [List.map_cons, List.foldlM_cons, lineOf, hst₁]
      exact hfold

/-- The reports on a map, inserted one after the other, give a trie that holds the map. -/
theorem exists_reinsert {m : Mm} (hm : m.Succeeds) {T : Stored IpV4} {calls : List (Report IpV4)}
    (hcalls : (calls : Multiset (Report IpV4)) = T.reports Prefix.ip) :
    ∃ st, calls.foldlM reinsert (.zero, m) = some st ∧ Mirrors st T := by
  obtain ⟨L, rfl, hL⟩ := exists_lines (φ := fun p => p) (fun _ => rfl) hcalls
  obtain ⟨st, hfold, hmir⟩ := foldlM_reinsert (mirrors_zero hm) L
  have hT : (∅ : Stored IpV4).adding L = T := by
    refine adding_eq fun e => (hL e).trans ⟨fun h => ?_, fun hv => ⟨e.1, hv, rfl⟩⟩
    obtain ⟨p, hv, rfl⟩ := h
    exact hv
  exact ⟨st, hfold, hT ▸ hmir⟩

/-- The IPv4 traversal of a trie reports the map it holds. -/
theorem Mirrors.bitmapMbNodeIter {st : MbNode × Mm} {T : Stored IpV4} (h : Mirrors st T) :
    ∃ calls, bitmapMbNodeIter st.1 0 32 0 = some calls ∧
      (calls : Multiset (Report IpV4)) = T.reports Prefix.ip := by
  obtain ⟨calls, hiter, hcalls⟩ := h.mbNodeIter orShiftedV4 0
  exact ⟨calls, hiter, hcalls.trans (reports_congr fun p _ => rebuilt_orShiftedV4 p)⟩

/-- **IPv4.**  After any run, the traversal reports every stored prefix once, with its next
hop, and nothing else, and what it reports rebuilds the trie. -/
theorem bitmap_run_iter {m m' : Mm} (hm : m.Succeeds) (hm' : m'.Succeeds) {ops : List (Op IpV4)}
    (hops : (storedMachine IpV4).Legal ∅ ops) :
    ∃ root m₁ calls, ops.foldlM bitmapStep (.zero, m) = some (root, m₁) ∧
      bitmapMbNodeIter root 0 32 0 = some calls ∧
      (calls : Multiset (Report IpV4)) = ((storedMachine IpV4).exec ∅ ops).reports Prefix.ip ∧
      ∃ root' m₂, calls.foldlM reinsert (.zero, m') = some (root', m₂) ∧
        root'.contents = root.contents := by
  obtain ⟨⟨root, m₁⟩, hrun, hmir⟩ := exists_trieStep_run hm hops
  obtain ⟨calls, hiter, hcalls⟩ := hmir.bitmapMbNodeIter
  obtain ⟨⟨root', m₂⟩, hfold, hmir'⟩ := exists_reinsert hm' hcalls
  exact ⟨root, m₁, calls, bitmapStep_eq ▸ hrun, hiter, hcalls, root', m₂, hfold,
    hmir'.contents_eq hmir⟩

theorem bitmap_run_iter_tenSlash8 :
    ∃ root m₁ calls, tenOps.foldlM bitmapStep (.zero, mmInit simple) = some (root, m₁) ∧
      bitmapMbNodeIter root 0 32 0 = some calls ∧
      (calls : Multiset (Report IpV4)) = ((storedMachine IpV4).exec ∅ tenOps).reports Prefix.ip ∧
      ∃ root' m₂, calls.foldlM reinsert (.zero, mmInit simple) = some (root', m₂) ∧
        root'.contents = root.contents :=
  bitmap_run_iter succeeds_mmInit_simple succeeds_mmInit_simple legal_tenOps

@[simp] theorem Prefix.iplo_printedIp (p : Prefix IpV6) : p.printedIp.iplo = p.ip.iplo := by
  rw [Prefix.printedIp]
  split_ifs <;> rfl

/-- Bits are added to the address, if anything. -/
theorem Prefix.le_iphi_printedIp (p : Prefix IpV6) :
    p.ip.iphi.toNat ≤ p.printedIp.iphi.toNat := by
  rw [Prefix.printedIp]
  split_ifs
  · rw [BitVec.toNat_or]
    exact Nat.left_le_or
  · exact le_refl _

/-- The address of a prefix of length 128 is reported as it is just if its last two bits are
set in the high word as well. -/
theorem Prefix.printedIp_eq_iff (p : Prefix IpV6) :
    p.printedIp = p.ip ↔ (p.cidr = 128 → p.ip.iphi ||| (p.ip.iplo &&& 3) = p.ip.iphi) := by
  rw [Prefix.printedIp]
  by_cases h : p.cidr = 128
  · rw [if_pos h, IpV6.ext_iff]
    simp [h]
  · simp [h]

/-- The reports are right all together just if each of them is: no sum of addresses makes up
for the bits that were added. -/
theorem reports_printedIp_iff {T : Stored IpV6} :
    T.reports Prefix.printedIp = T.reports Prefix.ip ↔ ∀ p ∈ T, p.printedIp = p.ip := by
  constructor
  · intro h
    by_contra hne
    push Not at hne
    obtain ⟨p, hp, hne⟩ := hne
    have hlt : p.ip.iphi.toNat < p.printedIp.iphi.toNat := by
      refine p.le_iphi_printedIp.lt_of_ne fun heq => hne ?_
      exact IpV6.ext (BitVec.eq_of_toNat_eq heq.symm) p.iplo_printedIp
    obtain ⟨e, he, rfl⟩ := Multiset.mem_map.mp hp
    have hsum : (T.entries.map fun e => e.1.ip.iphi.toNat).sum <
        (T.entries.map fun e => e.1.printedIp.iphi.toNat).sum :=
      Multiset.sum_lt_sum (fun e _ => e.1.le_iphi_printedIp) ⟨e, he, hlt⟩
    have heq := congrArg (fun s => (s.map fun c : Report IpV6 => c.1.iphi.toNat).sum) h
    simp only [Stored.reports, Multiset.map_map, Function.comp_def] at heq
    omega
  · exact reports_congr

/-- The IPv6 traversal of a trie reports the map it holds, with the addresses as they are
printed. -/
theorem Mirrors.bitmapv6PrintAllPrefix {st : MbNode × Mm} {T : Stored IpV6} (h : Mirrors st T) :
    ∃ calls, bitmapv6PrintAllPrefix st.1 = some calls ∧
      (calls : Multiset (Report IpV6)) = T.reports Prefix.printedIp := by
  obtain ⟨calls, hiter, hcalls⟩ := h.mbNodeIter orShiftedV6 ⟨0, 0⟩
  exact ⟨calls, hiter, hcalls.trans (reports_congr fun p _ => rebuilt_orShiftedV6 p)⟩

/-- **IPv6.**  After any run, the dump reports every stored prefix once, with its next hop, and
nothing else, just if the last two bits of every stored prefix of length 128 are set in its
high word as well. -/
theorem bitmapv6_run_print_iff {m : Mm} (hm : m.Succeeds) {ops : List (Op IpV6)}
    (hops : (storedMachine IpV6).Legal ∅ ops) :
    ∃ root m' calls, ops.foldlM bitmapv6Step (.zero, m) = some (root, m') ∧
      bitmapv6PrintAllPrefix root = some calls ∧
      ((calls : Multiset (Report IpV6)) = ((storedMachine IpV6).exec ∅ ops).reports Prefix.ip ↔
        ∀ p ∈ (storedMachine IpV6).exec ∅ ops, p.cidr = 128 →
          p.ip.iphi ||| (p.ip.iplo &&& 3) = p.ip.iphi) := by
  obtain ⟨⟨root, m'⟩, hrun, hmir⟩ := exists_trieStep_run hm hops
  obtain ⟨calls, hprint, hcalls⟩ := hmir.bitmapv6PrintAllPrefix
  refine ⟨root, m', calls, bitmapv6Step_eq ▸ hrun, hprint, ?_⟩
  rw [hcalls, reports_printedIp_iff]
  exact forall₂_congr fun p _ => p.printedIp_eq_iff

theorem bitmapv6_run_print_iff_docSlash32 :
    ∃ root m' calls, docOps.foldlM bitmapv6Step (.zero, mmInit simple) = some (root, m') ∧
      bitmapv6PrintAllPrefix root = some calls ∧
      ((calls : Multiset (Report IpV6)) = ((storedMachine IpV6).exec ∅ docOps).reports Prefix.ip ↔
        ∀ p ∈ (storedMachine IpV6).exec ∅ docOps, p.cidr = 128 →
          p.ip.iphi ||| (p.ip.iplo &&& 3) = p.ip.iphi) :=
  bitmapv6_run_print_iff succeeds_mmInit_simple legal_docOps

/-- With `::1/128` alone, the dump reports `0:0:0:1::1/128` instead. -/
theorem bitmapv6_print_loopback :
    ¬ ∀ m : Mm, m.Succeeds → ∀ ops, (storedMachine IpV6).Legal ∅ ops → ∀ root m',
      ops.foldlM bitmapv6Step (.zero, m) = some (root, m') → ∀ calls,
        bitmapv6PrintAllPrefix root = some calls →
        (calls : Multiset (Report IpV6)) = ((storedMachine IpV6).exec ∅ ops).reports Prefix.ip := by
  intro h
  have hlegal : (storedMachine IpV6).Legal ∅ [Op.insert loopback 1] := ⟨trivial, trivial⟩
  obtain ⟨⟨root, m'⟩, hrun, hmir⟩ := exists_trieStep_run succeeds_mmInit_simple hlegal
  obtain ⟨calls, hprint, hcalls⟩ := hmir.bitmapv6PrintAllPrefix
  have heq := h _ succeeds_mmInit_simple _ hlegal root m' (bitmapv6Step_eq ▸ hrun) calls hprint
  rw [hcalls, reports_printedIp_iff] at heq
  have hmem : loopback ∈ (∅ : Stored IpV6).insert loopback 1 := Finmap.mem_insert.mpr (.inl rfl)
  exact absurd (heq loopback hmem) (by decide)

end TreeBitmap
