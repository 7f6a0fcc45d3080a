import Mathlib.Data.List.Infix
import Mathlib.Data.List.Induction
import Mathlib.Data.Option.Basic
import Mathlib.Logic.Function.Basic

/-!
# Longest-prefix match

A table assigns values to some lists.  The longest match of a list is the longest
of its prefixes that the table knows, with its value.  `longest` computes it by
recursion on the list searched for, and everything else is read off its
characterization `longest_eq_some_iff`: how it splits along a concatenation,
which is what a search that consumes its key in chunks needs, and what an update
of one table entry does to it.

## Main definitions

* `Table α ν` — a partial map from lists to values.
* `longest T l` — the longest prefix of `l` in `T`, with its value.
* `lpm T l` — the value only.
* `below T s` — the part of a table under `s`, with `s` removed.
* `pushed T s` — the same part, made to answer for the whole table.
-/

namespace LongestMatch

variable {α ν : Type*}

/-- A partial map from lists to values. -/
abbrev Table (α ν : Type*) := List α → Option ν

/-- The part of a table that lies under `s`. -/
def below (T : Table α ν) (s : List α) : Table α ν := fun t => T (s ++ t)

@[simp] theorem below_apply (T : Table α ν) (s t : List α) : below T s t = T (s ++ t) := rfl

@[simp] theorem below_nil (T : Table α ν) : below T [] = T := rfl

theorem below_below (T : Table α ν) (s t : List α) : below (below T s) t = below T (s ++ t) := by
  funext u
  simp

/-- The longest prefix of the list that the table knows, with its value. -/
def longest (T : Table α ν) : List α → Option (List α × ν)
  | [] => (T []).map fun v => ([], v)
  | a :: l =>
      match longest (below T [a]) l with
      | some (p, v) => some (a :: p, v)
      | none => (T []).map fun v => ([], v)

theorem longest_eq_none_iff {T : Table α ν} {l : List α} :
    longest T l = none ↔ ∀ p, p <+: l → T p = none := by
  induction l generalizing T with
  | nil => simp [longest]
  | cons a l ih =>
      rw [longest]
      constructor
      · intro h p hp
        rcases hl : longest (below T [a]) l with _ | ⟨q, v⟩
        · rw [hl] at h
          rcases List.prefix_cons_iff.mp hp with rfl | ⟨t, rfl, ht⟩
          · simpa using h
          · exact ih.mp hl t ht
        · rw [hl] at h
          simp at h
      · intro h
        have hl : longest (below T [a]) l = none :=
          ih.mpr fun p hp => h (a :: p) (List.cons_prefix_cons.mpr ⟨rfl, hp⟩)
        rw [hl, h [] List.nil_prefix]
        rfl

/-- **What the longest match is**: a known prefix, at least as long as every
other one. -/
theorem longest_eq_some_iff {T : Table α ν} {l p : List α} {v : ν} :
    longest T l = some (p, v) ↔
      p <+: l ∧ T p = some v ∧ ∀ q, q <+: l → T q ≠ none → q.length ≤ p.length := by
  induction l generalizing T p v with
  | nil =>
      simp only [longest, Option.map_eq_some_iff, Prod.mk.injEq, List.prefix_nil]
      constructor
      · intro h
        obtain ⟨v', hv, rfl, rfl⟩ := h
        exact ⟨rfl, hv, fun q hq _ => hq ▸ le_refl _⟩
      · intro h
        obtain ⟨rfl, hv, -⟩ := h
        exact ⟨v, hv, rfl, rfl⟩
  | cons a l ih =>
      rw [longest]
      rcases hl : longest (below T [a]) l with _ | ⟨q, u⟩
      · have hnone := longest_eq_none_iff.mp hl
        simp only [Option.map_eq_some_iff, Prod.mk.injEq]
        constructor
        · intro h
          obtain ⟨v', hv, rfl, rfl⟩ := h
          refine ⟨List.nil_prefix, hv, ?_⟩
          intro r hr hTr
          rcases List.prefix_cons_iff.mp hr with rfl | ⟨t, rfl, ht⟩
          · simp
          · exact absurd (hnone t ht) hTr
        · intro h
          obtain ⟨hp, hv, -⟩ := h
          rcases List.prefix_cons_iff.mp hp with rfl | ⟨t, rfl, ht⟩
          · exact ⟨v, hv, rfl, rfl⟩
          · have := hnone t ht
            simp_all
      · obtain ⟨hq, hTq, hmax⟩ := ih.mp hl
        simp only [Option.some.injEq, Prod.mk.injEq]
        constructor
        · intro h
          obtain ⟨rfl, rfl⟩ := h
          refine ⟨List.cons_prefix_cons.mpr ⟨rfl, hq⟩, hTq, ?_⟩
          intro r hr hTr
          rcases List.prefix_cons_iff.mp hr with rfl | ⟨t, rfl, ht⟩
          · simp
          · simpa using hmax t ht hTr
        · intro h
          obtain ⟨hp, hv, hmax'⟩ := h
          have hlen := hmax' (a :: q) (List.cons_prefix_cons.mpr ⟨rfl, hq⟩) (by simp_all)
          rcases List.prefix_cons_iff.mp hp with rfl | ⟨t, rfl, ht⟩
          · simp at hlen
          · have htq := hmax t ht (by simp_all)
            have heq : t = q := by
              apply List.IsPrefix.eq_of_length (List.prefix_of_prefix_length_le ht hq htq)
              simp only [List.length_cons] at hlen
              omega
            subst heq
            simp_all

theorem longest_concat_of_some {T : Table α ν} {s : List α} {a : α} {v : ν}
    (h : T (s ++ [a]) = some v) : longest T (s ++ [a]) = some (s ++ [a], v) :=
  longest_eq_some_iff.mpr ⟨List.prefix_refl _, h, fun _ hq _ => hq.length_le⟩

theorem longest_concat_of_none {T : Table α ν} {s : List α} {a : α}
    (h : T (s ++ [a]) = none) : longest T (s ++ [a]) = longest T s := by
  rcases hs : longest T s with _ | ⟨p, v⟩
  · rw [longest_eq_none_iff] at hs ⊢
    intro p hp
    rcases List.prefix_concat_iff.mp hp with rfl | hp
    · exact h
    · exact hs p hp
  · obtain ⟨hp, hv, hmax⟩ := longest_eq_some_iff.mp hs
    refine longest_eq_some_iff.mpr ⟨hp.trans (List.prefix_append _ _), hv, fun q hq hT => ?_⟩
    rcases List.prefix_concat_iff.mp hq with rfl | hq
    · exact absurd h hT
    · exact hmax q hq hT

/-- The value at the longest match. -/
def lpm (T : Table α ν) (l : List α) : Option ν := (longest T l).map Prod.snd

theorem lpm_eq_some_iff {T : Table α ν} {l : List α} {v : ν} :
    lpm T l = some v ↔
      ∃ p, p <+: l ∧ T p = some v ∧ ∀ q, q <+: l → T q ≠ none → q.length ≤ p.length := by
  simp only [lpm, Option.map_eq_some_iff, Prod.exists, exists_eq_right, longest_eq_some_iff]

theorem lpm_eq_none_iff {T : Table α ν} {l : List α} :
    lpm T l = none ↔ ∀ p, p <+: l → T p = none := by
  simp only [lpm, Option.map_eq_none_iff, longest_eq_none_iff]

@[simp] theorem lpm_nil (T : Table α ν) : lpm T [] = T [] := by
  cases h : T [] <;> simp [lpm, longest, h]

theorem lpm_cons (T : Table α ν) (a : α) (l : List α) :
    lpm T (a :: l) = (lpm (below T [a]) l).or (T []) := by
  rw [lpm, longest, lpm]
  rcases longest (below T [a]) l with _ | ⟨p, v⟩
  · cases h : T [] <;> simp
  · simp

/-- The longest match splits along a concatenation: first under `s`, then among the
proper prefixes of `s`. -/
theorem longest_append (T : Table α ν) {s : List α} (hs : s ≠ []) (r : List α) :
    longest T (s ++ r) =
      ((longest (below T s) r).map fun m => (s ++ m.1, m.2)).or (longest T s.dropLast) := by
  induction s generalizing T with
  | nil => exact absurd rfl hs
  | cons a s ih =>
      cases s with
      | nil =>
          rw [List.cons_append, List.nil_append, longest]
          rcases longest (below T [a]) r with _ | ⟨p, v⟩ <;> rfl
      | cons b s =>
          rw [List.cons_append, longest, ih (below T [a]) (by simp), below_below,
            List.dropLast_cons_cons, longest, List.singleton_append]
          rcases longest (below T (a :: b :: s)) r with _ | ⟨p, v⟩ <;> rfl

/-- A search splits the same way. -/
theorem lpm_append (T : Table α ν) {s : List α} (hs : s ≠ []) (r : List α) :
    lpm T (s ++ r) = (lpm (below T s) r).or (lpm T s.dropLast) := by
  rw [lpm, longest_append T hs, lpm, lpm]
  rcases longest (below T s) r with _ | ⟨p, v⟩ <;> rfl

theorem lpm_concat (T : Table α ν) (s : List α) (a : α) :
    lpm T (s ++ [a]) = (T (s ++ [a])).or (lpm T s) := by
  induction s generalizing T with
  | nil => simp [lpm_cons]
  | cons b s ih =>
      rw [List.cons_append, lpm_cons, ih, lpm_cons T b s, Option.or_assoc]
      rfl

/-- If no key goes on beyond `l`, then what follows `l` is ignored. -/
theorem lpm_append_of_prefix {T : Table α ν} {l : List α} (r : List α)
    (h : ∀ p, p <+: l ++ r → l.length < p.length → T p = none) : lpm T (l ++ r) = lpm T l := by
  induction r using List.reverseRecOn with
  | nil => simp
  | append_singleton r a ih =>
      have hlast : T (l ++ r ++ [a]) = none :=
        h _ (by rw [List.append_assoc]) (by simp)
      rw [← List.append_assoc, lpm_concat, hlast, Option.none_or]
      refine ih fun p hp hlt => h p (hp.trans ?_) hlt
      rw [← List.append_assoc]
      exact List.prefix_append _ _

/-- A table whose keys are no longer than `l` ignores what follows `l`. -/
theorem lpm_append_of_bounded {T : Table α ν} {l : List α} (r : List α)
    (h : ∀ p, l.length < p.length → T p = none) : lpm T (l ++ r) = lpm T l :=
  lpm_append_of_prefix r fun p _ => h p

theorem longest_congr {T U : Table α ν} {l : List α} (h : ∀ p, p <+: l → T p = U p) :
    longest T l = longest U l := by
  rcases hU : longest U l with _ | ⟨p, v⟩
  · rw [longest_eq_none_iff] at hU ⊢
    exact fun p hp => (h p hp).trans (hU p hp)
  · rw [longest_eq_some_iff] at hU ⊢
    obtain ⟨hp, hv, hmax⟩ := hU
    exact ⟨hp, (h p hp).trans hv, fun q hq hT => hmax q hq (h q hq ▸ hT)⟩

/-- Where an unknown list is at least as long as the match, the match is one of its own. -/
theorem longest_eq_longest_dropLast {T : Table α ν} {l p : List α} (hp : p <+: l) (hT : T p = none)
    (h : ∀ q v, longest T l = some (q, v) → q.length ≤ p.length) :
    longest T l = longest T p.dropLast := by
  have hpre : p.dropLast <+: l := (List.dropLast_prefix p).trans hp
  rcases hl : longest T l with _ | ⟨q, v⟩
  · rw [eq_comm, longest_eq_none_iff]
    exact fun q hq => longest_eq_none_iff.mp hl q (hq.trans hpre)
  · obtain ⟨hq, hv, hmax⟩ := longest_eq_some_iff.mp hl
    have hqp : q <+: p := List.prefix_of_prefix_length_le hq hp (h q v hl)
    have hlt : q.length < p.length := by
      apply lt_of_le_of_ne hqp.length_le
      intro heq
      rw [hqp.eq_of_length heq, hT] at hv
      cases hv
    have hqd : q <+: p.dropLast :=
      List.prefix_of_prefix_length_le hqp (List.dropLast_prefix p)
        (by rw [List.length_dropLast]; omega)
    rw [eq_comm, longest_eq_some_iff]
    exact ⟨hqd, hv, fun r hr => hmax r (hr.trans hpre)⟩

/-! ## Leaf pushing

A search for a list that starts with `s` can be answered from the part of the table
under `s` alone, if the best match among the prefixes of `s` is pushed down to it. -/

/-- The part of a table under `s`, with the best match among the prefixes of `s` as
the entry of the empty list. -/
def pushed (T : Table α ν) (s : List α) : Table α ν
  | [] => lpm T s
  | a :: u => T (s ++ a :: u)

@[simp] theorem pushed_nil (T : Table α ν) (s : List α) : pushed T s [] = lpm T s := rfl

theorem pushed_of_ne_nil (T : Table α ν) (s : List α) {u : List α} (hu : u ≠ []) :
    pushed T s u = T (s ++ u) := by
  cases u with
  | nil => exact absurd rfl hu
  | cons a u => rfl

theorem below_pushed (T : Table α ν) (s : List α) (a : α) :
    below (pushed T s) [a] = below T (s ++ [a]) := by
  funext u
  simp [pushed_of_ne_nil]

/-- **A pushed table answers for the whole.** -/
theorem lpm_pushed (T : Table α ν) (s r : List α) : lpm (pushed T s) r = lpm T (s ++ r) := by
  cases r with
  | nil => simp
  | cons a r =>
      have hsplit : s ++ a :: r = (s ++ [a]) ++ r := by simp
      rw [lpm_cons, below_pushed, pushed_nil, hsplit, lpm_append T (by simp) r,
        List.dropLast_concat]

/-- The pushed table in two facts. -/
theorem eq_pushed {U T : Table α ν} {s : List α} (hnil : U [] = lpm T s)
    (hlong : ∀ u, u ≠ [] → U u = T (s ++ u)) : U = pushed T s := by
  funext u
  cases u with
  | nil => exact hnil
  | cons a u => exact hlong (a :: u) (by simp)

section Update

variable [DecidableEq α]

/-- An entry that is no prefix of `l` has no say in the match of `l`. -/
theorem longest_update_of_not_isPrefix {T : Table α ν} {l p : List α} (hp : ¬ p <+: l)
    (x : Option ν) : longest (Function.update T p x) l = longest T l := by
  apply longest_congr
  intro q hq
  have hqp : q ≠ p := by
    intro h
    exact hp (h ▸ hq)
  rw [Function.update_of_ne hqp]

/-- An entry shorter than the match changes nothing. -/
theorem longest_update_of_lt {T : Table α ν} {l p q : List α} {v : ν}
    (h : longest T l = some (q, v)) (hlt : p.length < q.length) (x : Option ν) :
    longest (Function.update T p x) l = some (q, v) := by
  have hne : ∀ r : List α, p.length < r.length → r ≠ p := by
    intro r hr hrp
    rw [hrp] at hr
    omega
  obtain ⟨hq, hv, hmax⟩ := longest_eq_some_iff.mp h
  refine longest_eq_some_iff.mpr ⟨hq, by rw [Function.update_of_ne (hne q hlt), hv], ?_⟩
  intro r hr hT
  by_cases hrp : r = p
  · subst hrp
    omega
  · exact hmax r hr (by rwa [Function.update_of_ne hrp] at hT)

/-- A stored entry at least as long as the match becomes the match. -/
theorem longest_update_of_le {T : Table α ν} {l p : List α} (hp : p <+: l) (v : ν)
    (h : ∀ q u, longest T l = some (q, u) → q.length ≤ p.length) :
    longest (Function.update T p (some v)) l = some (p, v) := by
  refine longest_eq_some_iff.mpr ⟨hp, by simp, ?_⟩
  intro r hr hT
  by_cases hrp : r = p
  · rw [hrp]
  rw [Function.update_of_ne hrp] at hT
  rcases hl : longest T l with _ | ⟨q, u⟩
  · exact absurd (longest_eq_none_iff.mp hl r hr) hT
  · exact le_trans ((longest_eq_some_iff.mp hl).2.2 r hr hT) (h q u hl)

/-- Removing the match leaves the longest match among its proper prefixes. -/
theorem longest_update_none {T : Table α ν} {l p : List α} {v : ν}
    (h : longest T l = some (p, v)) :
    longest (Function.update T p none) l = if p = [] then none else longest T p.dropLast := by
  obtain ⟨hp, hv, hmax⟩ := longest_eq_some_iff.mp h
  have hshort : ∀ q, q <+: l → Function.update T p none q ≠ none →
      q <+: p.dropLast ∧ q ≠ p ∧ p ≠ [] := by
    intro q hq hT
    have hqp : q ≠ p := by
      intro hqp
      rw [hqp, Function.update_self] at hT
      exact hT rfl
    rw [Function.update_of_ne hqp] at hT
    have hpre : q <+: p := List.prefix_of_prefix_length_le hq hp (hmax q hq hT)
    have hlt : q.length < p.length :=
      lt_of_le_of_ne (hmax q hq hT) fun heq => hqp (hpre.eq_of_length heq)
    refine ⟨?_, hqp, ?_⟩
    · rw [List.prefix_iff_eq_take, List.dropLast_eq_take, List.take_take,
        min_eq_left (by omega)]
      exact List.prefix_iff_eq_take.mp hpre
    · intro hnil
      rw [hnil] at hlt
      exact Nat.not_lt_zero _ hlt
  split_ifs with hnil
  · rw [longest_eq_none_iff]
    intro q hq
    by_contra hT
    exact (hshort q hq hT).2.2 hnil
  · have hdrop : ∀ q : List α, q <+: p.dropLast → q <+: l ∧ q ≠ p := by
      intro q hq
      have hqp : q <+: p := hq.trans (List.dropLast_prefix p)
      refine ⟨hqp.trans hp, fun heq => ?_⟩
      have hle := hq.length_le
      have hpos := List.length_pos_of_ne_nil hnil
      rw [heq, List.length_dropLast] at hle
      omega
    rcases hd : longest T p.dropLast with _ | ⟨r, u⟩
    · rw [longest_eq_none_iff] at hd ⊢
      intro q hq
      by_contra hT
      obtain ⟨hqd, hqp, -⟩ := hshort q hq hT
      rw [Function.update_of_ne hqp] at hT
      exact hT (hd q hqd)
    · obtain ⟨hr, hu, hmax'⟩ := longest_eq_some_iff.mp hd
      refine longest_eq_some_iff.mpr ⟨(hdrop r hr).1, ?_, ?_⟩
      · rw [Function.update_of_ne (hdrop r hr).2, hu]
      · intro q hq hT
        obtain ⟨hqd, hqp, -⟩ := hshort q hq hT
        exact hmax' q hqd (by rwa [Function.update_of_ne hqp] at hT)

end Update

end LongestMatch
