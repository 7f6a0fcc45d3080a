import Mathlib.Order.Bounds.Basic
import Mathlib.Order.MinMax
import TreeBitmap.Lib.Run

/-!
# High-water marks

The values of a quantity along a run of a program, and the greatest of them.  A second quantity that
follows the first one up, but never comes down, shows the greatest value so far.

## Main definitions

* `Run.Values step q s ops` — the values of `q` in the states of a run.
* `Run.Lawful.isGreatest` — **a mark shows the greatest value**.
-/

namespace Run

variable {σ ι β : Type*} {step : σ → ι → Option σ} {legal : σ → ι → Prop} {q : σ → β} {s s₁ : σ}
  {op : ι} {ops : List ι}

/-- The values of a quantity in the states of a run, from the first to the last. -/
def Values (step : σ → ι → Option σ) (q : σ → β) (s : σ) (ops : List ι) : Set β :=
  {x | ∃ pre s', pre <+: ops ∧ pre.foldlM step s = some s' ∧ q s' = x}

theorem mem_values_self (step : σ → ι → Option σ) (q : σ → β) (s : σ) (ops : List ι) :
    q s ∈ Values step q s ops :=
  ⟨[], s, List.nil_prefix, rfl, rfl⟩

@[simp] theorem values_nil (step : σ → ι → Option σ) (q : σ → β) (s : σ) :
    Values step q s [] = {q s} := by
  ext x
  constructor
  · intro hx
    obtain ⟨pre, s', hpre, hrun, rfl⟩ := hx
    obtain rfl := List.prefix_nil.mp hpre
    obtain rfl := Option.some.inj hrun
    rfl
  · intro hx
    obtain rfl : x = q s := hx
    exact mem_values_self step q s []

theorem values_cons (hs : step s op = some s₁) :
    Values step q s (op :: ops) = insert (q s) (Values step q s₁ ops) := by
  ext x
  constructor
  · intro hx
    obtain ⟨pre, s', hpre, hrun, rfl⟩ := hx
    cases pre with
    | nil =>
        obtain rfl := Option.some.inj hrun
        exact Set.mem_insert _ _
    | cons op' pre =>
        obtain ⟨rfl, hpre'⟩ := List.cons_prefix_cons.mp hpre
        rw [List.foldlM_cons, hs] at hrun
        exact Set.mem_insert_of_mem _ ⟨pre, s', hpre', hrun, rfl⟩
  · intro hx
    rcases Set.mem_insert_iff.mp hx with rfl | hx
    · exact mem_values_self step q s _
    · obtain ⟨pre, s', hpre, hrun, rfl⟩ := hx
      refine ⟨op :: pre, s', List.cons_prefix_cons.mpr ⟨rfl, hpre⟩, ?_, rfl⟩
      rw [List.foldlM_cons, hs]
      exact hrun

variable [LinearOrder β] {mark : σ → β} {P : σ → Prop}

/-- The mark after a run: the greatest of the values and of the mark before. -/
theorem Lawful.isGreatest_insert
    (hstep : ∀ s op s', P s → legal s op → step s op = some s' →
      P s' ∧ mark s' = max (mark s) (q s'))
    {s' : σ} (h0 : P s) (hle : q s ≤ mark s) (hops : Lawful step legal s ops)
    (hrun : ops.foldlM step s = some s') :
    IsGreatest (insert (mark s) (Values step q s ops)) (mark s') := by
  induction ops generalizing s with
  | nil =>
      obtain rfl := Option.some.inj hrun
      refine ⟨Set.mem_insert _ _, fun x hx => ?_⟩
      rcases Set.mem_insert_iff.mp hx with rfl | hx
      · exact le_refl _
      · rw [values_nil] at hx
        exact (Set.mem_singleton_iff.mp hx).trans_le hle
  | cons op ops ih =>
      rw [List.foldlM_cons] at hrun
      obtain ⟨s₁, hs₁, hrun⟩ := Option.bind_eq_some_iff.mp hrun
      obtain ⟨hlegal, hrest⟩ := hops s₁ hs₁
      obtain ⟨h₁, hmark⟩ := hstep s op s₁ h0 hlegal hs₁
      have hle₁ : q s₁ ≤ mark s₁ := hmark ▸ le_max_right _ _
      obtain ⟨hmem, hub⟩ := ih h₁ hle₁ hrest hrun
      have hmax : mark s ≤ mark s' :=
        (hmark ▸ le_max_left (mark s) (q s₁)).trans (hub (Set.mem_insert _ _))
      rw [values_cons hs₁]
      refine ⟨?_, fun x hx => ?_⟩
      · rcases Set.mem_insert_iff.mp hmem with heq | hmem
        · -- the mark has not moved since the first step
          rw [heq, hmark]
          rcases max_choice (mark s) (q s₁) with hc | hc
          · rw [hc]
            exact Set.mem_insert _ _
          · rw [hc]
            exact .inr (.inr (mem_values_self step q s₁ ops))
        · exact .inr (.inr hmem)
      · rcases Set.mem_insert_iff.mp hx with rfl | hx
        · exact hmax
        · rcases Set.mem_insert_iff.mp hx with rfl | hx
          · exact hle.trans hmax
          · exact hub (Set.mem_insert_of_mem _ hx)

/-- **A mark shows the greatest value so far**, if it starts with the quantity and goes up with it,
but never down. -/
theorem Lawful.isGreatest (q mark : σ → β) (P : σ → Prop)
    (hstep : ∀ s op s', P s → legal s op → step s op = some s' →
      P s' ∧ mark s' = max (mark s) (q s'))
    {s' : σ} (h0 : P s) (hmark : mark s = q s) (hops : Lawful step legal s ops)
    (hrun : ops.foldlM step s = some s') : IsGreatest (Values step q s ops) (mark s') := by
  have h := isGreatest_insert hstep h0 hmark.ge hops hrun
  rwa [hmark, Set.insert_eq_of_mem (mem_values_self step q s ops)] at h

end Run
