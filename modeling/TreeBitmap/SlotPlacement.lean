import TreeBitmap.Placement
import TreeBitmap.SlotBooks

/-!
# The `COMPRESS_NHI` build over the page-colour allocator

The edits of this build ask for other sizes than those of the plain one: the mask takes a word in
front of the slots, so that a full node may need a unit more.  That is 98 units at most, and the
allocator has a list for them.  What has been proved of its blocks then goes for this build as well,
since they come back with the sizes they were asked for.

## Main definitions

* `insertPrefix_serves`, `deletePrefix_serves` — no operation asks for 128 units or more.
* `bitmap_run_slotSettled` — **the nodes lie apart, in pages of the colours of their levels**.
-/

namespace TreeBitmap

namespace CompressNhi

open BitString Ranked Ledger
open IpAddr (lshift)

/-! ## The calls of an update -/

section Updates

variable {m m' : Mm} {n n' : MbNode} {pos level : ℕ}

theorem newNode_serves {mbCnt nhCnt : ℕ} {r : Region} (hmb : mbCnt ≤ 65) (hnh : nhCnt ≤ 66)
    (h : newNode m mbCnt nhCnt level = some (r, m')) : Serves m m' := by
  obtain ⟨⟨ret, m₁⟩, halloc, h⟩ := Option.bind_eq_some_iff.mp h
  have hm : m₁ = m' := by
    cases ret <;> cases h <;> rfl
  subst hm
  have hlt : upChild mbCnt + upRule nhCnt < 128 := by
    rw [upChild, upRule, NODE_SIZE]
    omega
  exact (Serves.refl m).alloc hlt halloc

theorem edit_serves {mbCnt nhCnt ruleNum childNum : ℕ} {r : Region} {m₁ : Mm} (hmb : mbCnt ≤ 65)
    (hnh : nhCnt ≤ 66) (hnew : newNode m mbCnt nhCnt level = some (r, m₁))
    (hfree : freeOld m₁ n ruleNum childNum level = some m') : Serves m m' :=
  (newNode_serves hmb hnh hnew).trans (freeOld_serves hfree)

/-- The mask has 64 bits. -/
theorem ruleNum_le {k : ℕ} (h : ruleNum n = some k) : k ≤ 65 := by
  rw [ruleNum] at h
  split_ifs at h
  · obtain ⟨mask, -, h⟩ := Option.bind_eq_some_iff.mp h
    obtain rfl := Option.some.inj h
    have hmask := countChildren_le mask
    omega
  · obtain rfl := Option.some.inj h
    exact Nat.zero_le _

theorem extendRule_serves {nhi : Nhi} (h : extendRule m n pos level nhi = some (n', m')) :
    Serves m m' := by
  have hext := countChildren_le n.external
  rw [extendRule] at h
  obtain ⟨k, hnum, h⟩ := Option.bind_eq_some_iff.mp h
  obtain ⟨b, -, h⟩ := Option.bind_eq_some_iff.mp h
  have hk := ruleNum_le hnum
  cases b with
  | true =>
      cases h
      exact .refl m
  | false =>
      obtain ⟨⟨node, pos'⟩, -, h⟩ := Option.bind_eq_some_iff.mp h
      obtain ⟨⟨r, m₁⟩, hnew, h⟩ := Option.bind_eq_some_iff.mp h
      obtain ⟨children, -, h⟩ := Option.bind_eq_some_iff.mp h
      obtain ⟨newMask, -, h⟩ := Option.bind_eq_some_iff.mp h
      obtain ⟨rules₀, -, h⟩ := Option.bind_eq_some_iff.mp h
      obtain ⟨rules₁, -, h⟩ := Option.bind_eq_some_iff.mp h
      obtain ⟨rules₂, -, h⟩ := Option.bind_eq_some_iff.mp h
      obtain ⟨m₂, hfree, h⟩ := Option.bind_eq_some_iff.mp h
      cases h
      exact edit_serves (by omega) (by omega) hnew hfree

theorem extendChild_serves {slot : ℤ} (h : extendChild m n level pos = some (n', slot, m')) :
    Serves m m' := by
  have hext := countChildren_le n.external
  rw [extendChild] at h
  obtain ⟨k, hnum, h⟩ := Option.bind_eq_some_iff.mp h
  obtain ⟨⟨r, m₁⟩, hnew, h⟩ := Option.bind_eq_some_iff.mp h
  obtain ⟨rules, -, h⟩ := Option.bind_eq_some_iff.mp h
  obtain ⟨children, -, h⟩ := Option.bind_eq_some_iff.mp h
  obtain ⟨m₂, hfree, h⟩ := Option.bind_eq_some_iff.mp h
  cases h
  have hk := ruleNum_le hnum
  exact edit_serves (by omega) (by omega) hnew hfree

theorem reduceChild_serves (h : reduceChild m n pos level = some (n', m')) : Serves m m' := by
  have hext := countChildren_le n.external
  rw [reduceChild] at h
  obtain ⟨k, hnum, h⟩ := Option.bind_eq_some_iff.mp h
  obtain ⟨-, -, h⟩ := Option.bind_eq_some_iff.mp h
  obtain ⟨⟨r, m₁⟩, hnew, h⟩ := Option.bind_eq_some_iff.mp h
  obtain ⟨rules, -, h⟩ := Option.bind_eq_some_iff.mp h
  obtain ⟨children, -, h⟩ := Option.bind_eq_some_iff.mp h
  obtain ⟨m₂, hfree, h⟩ := Option.bind_eq_some_iff.mp h
  cases h
  have hk := ruleNum_le hnum
  exact edit_serves (by omega) (by omega) hnew hfree

theorem reduceRule_serves (h : reduceRule m n pos level = some (n', m')) : Serves m m' := by
  have hext := countChildren_le n.external
  rw [reduceRule] at h
  obtain ⟨k, hnum, h⟩ := Option.bind_eq_some_iff.mp h
  obtain ⟨mask, -, h⟩ := Option.bind_eq_some_iff.mp h
  have hk := ruleNum_le hnum
  by_cases htest : ¬ testBitmap mask pos
  · rw [if_pos htest] at h
    cases h
    exact .refl m
  · rw [if_neg htest] at h
    obtain ⟨node, -, h⟩ := Option.bind_eq_some_iff.mp h
    by_cases hone : k ≤ 1
    · rw [if_pos hone] at h
      cases h
      exact .refl m
    · rw [if_neg hone] at h
      obtain ⟨⟨r, m₁⟩, hnew, h⟩ := Option.bind_eq_some_iff.mp h
      obtain ⟨children, -, h⟩ := Option.bind_eq_some_iff.mp h
      obtain ⟨rules, -, h⟩ := Option.bind_eq_some_iff.mp h
      obtain ⟨m₂, hfree, h⟩ := Option.bind_eq_some_iff.mp h
      cases h
      -- the last slot takes the mask with it
      by_cases htwo : k = 2
      · rw [if_pos htwo] at hnew
        exact edit_serves (by omega) (by omega) hnew hfree
      · rw [if_neg htwo] at hnew
        exact edit_serves (by omega) (by omega) hnew hfree

variable {α : Type} [IpAddr α]

theorem insertPrefix_serves {nhi : Nhi} {ret : ℤ} {ip : α} {cidr : ℕ}
    (h : insertPrefix m n ip cidr level nhi = some (n', m', ret)) : Serves m m' := by
  induction cidr using Nat.strong_induction_on generalizing m n n' ip level with
  | _ cidr ih =>
      rw [insertPrefix] at h
      by_cases hlt : cidr < STRIDE
      · rw [if_pos hlt] at h
        by_cases htest : testBitmap n.internal (leafPos ip cidr) = true
        · rw [if_pos htest] at h
          obtain ⟨p, -, h⟩ := Option.bind_eq_some_iff.mp h
          obtain ⟨n₁, -, h⟩ := Option.bind_eq_some_iff.mp h
          cases h
          exact .refl _
        · rw [if_neg htest] at h
          obtain ⟨⟨n₁, m₁⟩, hext, h⟩ := Option.bind_eq_some_iff.mp h
          cases h
          exact extendRule_serves hext
      · have hsub : cidr - STRIDE < cidr := by
          rw [STRIDE_eq] at *
          omega
        rw [if_neg hlt] at h
        obtain ⟨⟨n₁, slot, m₁⟩, henter, h⟩ := Option.bind_eq_some_iff.mp h
        obtain ⟨c, -, h⟩ := Option.bind_eq_some_iff.mp h
        obtain ⟨⟨c', m₂, ret'⟩, hrec, h⟩ := Option.bind_eq_some_iff.mp h
        obtain ⟨children, -, h⟩ := Option.bind_eq_some_iff.mp h
        cases h
        refine Serves.trans ?_ (ih _ hsub hrec)
        split at henter
        · cases henter
          exact .refl m
        · exact extendChild_serves henter

theorem updateParents_serves {c : MbNode} {del ret : Bool} {trace : List (MbNode × ℕ)}
    (h : updateParents m c del trace = some (n', m', ret)) : Serves m m' := by
  induction trace generalizing m c del with
  | nil =>
      cases h
      exact .refl _
  | cons frame trace ih =>
      obtain ⟨n, pos⟩ := frame
      obtain ⟨n₁, -, h⟩ := Option.bind_eq_some_iff.mp h
      obtain ⟨⟨n₂, m₁⟩, hred, h⟩ := Option.bind_eq_some_iff.mp h
      refine Serves.trans ?_ (ih h)
      cases del with
      | true => exact reduceChild_serves hred
      | false =>
          cases hred
          exact .refl m

theorem deletePrefix_serves {ip : α} {cidr : ℕ} {d ret : Bool} {calls : List Nhi}
    (h : deletePrefix m n ip cidr d = some (n', m', ret, calls)) : Serves m m' := by
  obtain ⟨trace, -, h⟩ := Option.bind_eq_some_iff.mp h
  obtain ⟨⟨last, pos⟩, hhead, h⟩ := Option.bind_eq_some_iff.mp h
  obtain ⟨calls', -, h⟩ := Option.bind_eq_some_iff.mp h
  obtain ⟨⟨n₂, m₂, ret'⟩, hupdate, h⟩ := Option.bind_eq_some_iff.mp h
  cases h
  cases trace with
  | nil => cases hhead
  | cons frame trace =>
      obtain ⟨⟨n₁, m₁⟩, hred, hparents⟩ := Option.bind_eq_some_iff.mp hupdate
      exact (reduceRule_serves hred).trans (updateParents_serves hparents)

theorem bitmapStep_serves {st st' : MbNode × Mm} {op : Op IpV4} (h : bitmapStep st op = some st') :
    Serves st.2 st'.2 := by
  cases op with
  | insert p nhi =>
      obtain ⟨⟨root, m, ret⟩, hins, h⟩ := Option.bind_eq_some_iff.mp h
      cases h
      exact insertPrefix_serves hins
  | delete p d =>
      obtain ⟨⟨root, m, ret, calls⟩, hdel, h⟩ := Option.bind_eq_some_iff.mp h
      cases h
      exact deletePrefix_serves hdel

end Updates

/-! ## Runs -/

/-- **The nodes lie apart in this build as well**, after a run of harmless updates: the page-colour
allocator answers every call as long as each area is asked for in time, and then it has the blocks
of the nodes out and nothing else. -/
theorem bitmap_run_slotSettled (pfnbuf : ℕ → BitVec 64) {ops : List (Op IpV4)}
    (hops : (storedMachine IpV4).Legal ∅ ops)
    (hfit : Run.Guarded bitmapStep (fun st op => Harmless st.1 op) (.zero, mmInit colorOp) ops) :
    ∃ root m, ops.foldlM bitmapStep (.zero, mmInit colorOp) = some (root, m) ∧
      Plays pfnbuf m.calls (LiesApart pfnbuf (blocks 0 root) m.calls) := by
  obtain ⟨⟨root, m⟩, st', lost, hrun, -, hbook⟩ :=
    exists_slotBooked_run succeeds_mmInit_colorOp hops hfit
  have hplays := (Serves.run bitmapStep_serves hrun).stands pfnbuf hbook.sound.disciplined
  refine ⟨root, m, hrun, hplays.mono fun mc addr hheld => ?_⟩
  obtain ⟨held, hstands⟩ := hheld
  exact hstands.liesApart hbook.sound hbook.live hbook.units

/-- Two prefixes with one slot. -/
theorem bitmap_run_slotSettled_halves :
    ∃ root m mc addr, [Op.insert upperHalf 1, .insert lowerHalf 1].foldlM bitmapStep
        (.zero, mmInit colorOp) = some (root, m) ∧
      replay (fun _ => 0) m.calls = some (mc, addr) ∧
      LiesApart (fun _ => 0) (blocks 0 root) m.calls mc addr :=
  exists_played (Q := fun root => LiesApart (fun _ => 0) (blocks 0 root))
    (bitmap_run_slotSettled (fun _ => 0) ⟨trivial, trivial, trivial⟩
      (guarded_halves succeeds_mmInit_colorOp)) (by decide +kernel)

end CompressNhi

end TreeBitmap
