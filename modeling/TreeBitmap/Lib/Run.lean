import Mathlib.Data.List.Basic

/-!
# Loops and runs of a program that may fault

A step of a low-level program is a function into `Option`, with `none` for a fault.
A few inductions are needed again and again: the invariant of a counted loop, the
invariant of a program that takes calls, and the simulation of an abstract machine by
a run of a program.  They are made once, here.

An abstract machine says which operations are legal in a state and what they do.
The program refines it when every legal operation succeeds and keeps the two
states related; then so does every legal run.

## Main definitions

* `Run.foldlM_range` — the invariant of `for (i = 0; i < n; i++)`;
  `Run.foldlM_range_of_eq_some` — the same for a loop that is known not to fault;
  `Run.foldlM_range_follow` — two loops, side by side.
* `Run.whileLoop` — `for (; cond; ) body`, with fuel; `Run.whileLoop_of_rounds` — the
  loop ends if its invariant does not go on for ever; `Run.whileLoop_follow` — two loops,
  side by side.
* `Run.Throughout step p s ops` — `p` holds at every step of a program; `Run.Lawful` — its
  caller keeps to the contract.
* `Run.Guarded step p s ops` — `p` holds before every step of a program.
* `Run.Machine τ ι` — an abstract machine.
* `Run.Machine.Along p t ops` — `p` holds at every step of a run.
* `Run.Machine.refines` — a step simulation gives a run simulation;
  `Run.Machine.lockstep` — the same for two programs, one of which is guarded.
-/

namespace Run

variable {σ τ ι : Type*}

/-- **The invariant of a counted loop** carries to its end, without a fault. -/
theorem foldlM_range {f : σ → ℕ → Option σ} {n : ℕ} (P : ℕ → σ → Prop) {s : σ} (h0 : P 0 s)
    (hstep : ∀ i s, i < n → P i s → ∃ s', f s i = some s' ∧ P (i + 1) s') :
    ∃ s', (List.range n).foldlM f s = some s' ∧ P n s' := by
  induction n with
  | zero => exact ⟨s, rfl, h0⟩
  | succ n ih =>
      obtain ⟨s₁, hs₁, hP₁⟩ := ih fun i s hi => hstep i s (by omega)
      obtain ⟨s₂, hs₂, hP₂⟩ := hstep n s₁ (by omega) hP₁
      refine ⟨s₂, ?_, hP₂⟩
      rw [List.range_succ, List.foldlM_append, hs₁]
      simp [hs₂]

/-- The invariant of a counted loop that may fault, if it has not. -/
theorem foldlM_range_of_eq_some {f : σ → ℕ → Option σ} {n : ℕ} (P : ℕ → σ → Prop) {s s' : σ}
    (h0 : P 0 s) (hstep : ∀ i s s', i < n → P i s → f s i = some s' → P (i + 1) s')
    (h : (List.range n).foldlM f s = some s') : P n s' := by
  induction n generalizing s' with
  | zero =>
      cases h
      exact h0
  | succ n ih =>
      rw [List.range_succ, List.foldlM_append] at h
      obtain ⟨s₁, hs₁, hs'⟩ := Option.bind_eq_some_iff.mp h
      have hP₁ : P n s₁ := ih (fun i s s' hi => hstep i s s' (by omega)) hs₁
      rw [List.foldlM_cons] at hs'
      obtain ⟨s₂, hs₂, hs'⟩ := Option.bind_eq_some_iff.mp hs'
      have heq : s₂ = s' := Option.some.inj hs'
      exact heq ▸ hstep n s₁ s₂ (by omega) hP₁ hs₂

/-- A counted loop that follows another one, which has not faulted. -/
theorem foldlM_range_follow {f : σ → ℕ → Option σ} {g : τ → ℕ → Option τ} {n : ℕ}
    (P : ℕ → σ → τ → Prop) {s s' : σ} {t : τ} (h0 : P 0 s t)
    (hstep : ∀ i s s' t, i < n → P i s t → f s i = some s' →
      ∃ t', g t i = some t' ∧ P (i + 1) s' t')
    (h : (List.range n).foldlM f s = some s') :
    ∃ t', (List.range n).foldlM g t = some t' ∧ P n s' t' := by
  refine foldlM_range_of_eq_some
    (fun i s => ∃ t', (List.range i).foldlM g t = some t' ∧ P i s t') ⟨t, rfl, h0⟩ ?_ h
  intro i s s' hi hP hs
  obtain ⟨t₁, ht₁, hP₁⟩ := hP
  obtain ⟨t₂, ht₂, hP₂⟩ := hstep i s s' t₁ hi hP₁ hs
  refine ⟨t₂, ?_, hP₂⟩
  rw [List.range_succ, List.foldlM_append, ht₁]
  simp [ht₂]

/-! ## Unbounded loops -/

/-- A loop that goes on as long as `cond` holds.  It faults when the fuel runs out. -/
def whileLoop (cond : σ → Bool) (body : σ → Option σ) : ℕ → σ → Option σ
  | 0, _ => none
  | fuel + 1, s => if cond s then body s >>= whileLoop cond body fuel else some s

theorem whileLoop_mono {cond : σ → Bool} {body : σ → Option σ} {fuel fuel' : ℕ}
    (hle : fuel ≤ fuel') {s s' : σ} (h : whileLoop cond body fuel s = some s') :
    whileLoop cond body fuel' s = some s' := by
  induction fuel generalizing fuel' s with
  | zero => cases h
  | succ fuel ih =>
      obtain ⟨k, rfl⟩ : ∃ k, fuel' = k + 1 := ⟨fuel' - 1, by omega⟩
      rw [whileLoop] at h ⊢
      split_ifs at h ⊢ with hcond
      · obtain ⟨s₁, hs₁, h⟩ := Option.bind_eq_some_iff.mp h
        rw [hs₁]
        exact ih (by omega) h
      · exact h

/-- **A loop ends**, with its invariant, if each round brings it closer to a state in
which the condition fails. -/
theorem whileLoop_of_rounds (cond : σ → Bool) (body : σ → Option σ) {N : ℕ} (P : ℕ → σ → Prop)
    (hstep : ∀ i s, i < N → P i s → cond s → ∃ s', body s = some s' ∧ P (i + 1) s')
    (hend : ∀ s, P N s → cond s = false) {i fuel : ℕ} (hi : i ≤ N) (hfuel : N - i < fuel) {s : σ}
    (hP : P i s) :
    ∃ j s', whileLoop cond body fuel s = some s' ∧ P j s' ∧ cond s' = false := by
  induction fuel generalizing i s with
  | zero => omega
  | succ fuel ih =>
      rw [whileLoop]
      by_cases hcond : cond s
      · have hlt : i < N := by
          apply Nat.lt_of_le_of_ne hi
          intro heq
          rw [hend s (heq ▸ hP)] at hcond
          cases hcond
        obtain ⟨s₁, hs₁, hP₁⟩ := hstep i s hlt hP hcond
        obtain ⟨j, s', hs', hP', hcond'⟩ := ih (i := i + 1) (by omega) (by omega) hP₁
        refine ⟨j, s', ?_, hP', hcond'⟩
        rw [if_pos hcond, hs₁]
        exact hs'
      · exact ⟨i, s, if_neg hcond, hP, Bool.eq_false_iff.mpr hcond⟩

/-- A loop that follows another one, which has ended. -/
theorem whileLoop_follow {cond : σ → Bool} {body : σ → Option σ} {cond' : τ → Bool}
    {body' : τ → Option τ} (R : σ → τ → Prop) (hcond : ∀ s t, R s t → cond' t = cond s)
    (hbody : ∀ s s₁ t, R s t → body s = some s₁ → ∃ t₁, body' t = some t₁ ∧ R s₁ t₁) {fuel : ℕ}
    {s s' : σ} {t : τ} (hR : R s t) (h : whileLoop cond body fuel s = some s') :
    ∃ t', whileLoop cond' body' fuel t = some t' ∧ R s' t' := by
  induction fuel generalizing s t with
  | zero => cases h
  | succ fuel ih =>
      rw [whileLoop] at h ⊢
      rw [hcond s t hR]
      split_ifs at h ⊢ with hc
      · obtain ⟨s₁, hs₁, h⟩ := Option.bind_eq_some_iff.mp h
        obtain ⟨t₁, ht₁, hR₁⟩ := hbody s s₁ t hR hs₁
        obtain ⟨t', ht', hR'⟩ := ih hR₁ h
        exact ⟨t', by rw [ht₁]; exact ht', hR'⟩
      · obtain rfl := Option.some.inj h
        exact ⟨t, rfl, hR⟩

/-! ## Programs -/

/-- A property of steps holds of every step that a program takes in a run. -/
def Throughout (step : σ → ι → Option σ) (p : σ → ι → σ → Prop) : σ → List ι → Prop
  | _, [] => True
  | s, op :: ops => ∀ s', step s op = some s' → p s op s' ∧ Throughout step p s' ops

/-- The caller keeps to the contract in every step of a run. -/
abbrev Lawful (step : σ → ι → Option σ) (legal : σ → ι → Prop) : σ → List ι → Prop :=
  Throughout step fun s op _ => legal s op

/-- A condition on the state before a step holds before every step of a run. -/
def Guarded (step : σ → ι → Option σ) (p : σ → ι → Prop) : σ → List ι → Prop
  | _, [] => True
  | s, op :: ops => p s op ∧ ∀ s', step s op = some s' → Guarded step p s' ops

theorem guarded_trivial {step : σ → ι → Option σ} (s : σ) (ops : List ι) :
    Guarded step (fun _ _ => True) s ops := by
  induction ops generalizing s with
  | nil => trivial
  | cons op ops ih => exact ⟨trivial, fun s' _ => ih s'⟩

section Programs

variable {step : σ → ι → Option σ} {legal : σ → ι → Prop} {P : σ → Prop}

/-- **The invariant of a program** carries over its runs. -/
theorem Lawful.invariant
    (hstep : ∀ s op s', P s → legal s op → step s op = some s' → P s') {s s' : σ} {ops : List ι}
    (h0 : P s) (hops : Lawful step legal s ops) (hrun : ops.foldlM step s = some s') : P s' := by
  induction ops generalizing s with
  | nil =>
      cases hrun
      exact h0
  | cons op ops ih =>
      rw [List.foldlM_cons] at hrun
      obtain ⟨s₁, hs₁, hrun⟩ := Option.bind_eq_some_iff.mp hrun
      obtain ⟨hlegal, hrest⟩ := hops s₁ hs₁
      exact ih (hstep s op s₁ h0 hlegal hs₁) hrest hrun

/-- Two properties of steps hold together throughout a run, if they do in every state of an
invariant that steps with the property keep. -/
theorem Lawful.throughout_iff {p q : σ → ι → σ → Prop}
    (hstep : ∀ s op s', P s → legal s op → step s op = some s' →
      (p s op s' ↔ q s op s') ∧ (q s op s' → P s'))
    {s : σ} {ops : List ι} (h0 : P s) (hops : Lawful step legal s ops) :
    Throughout step p s ops ↔ Throughout step q s ops := by
  induction ops generalizing s with
  | nil => exact Iff.rfl
  | cons op ops ih =>
      refine forall₂_congr fun s₁ hs₁ => ?_
      obtain ⟨hlegal, hrest⟩ := hops s₁ hs₁
      obtain ⟨hpq, hkeep⟩ := hstep s op s₁ h0 hlegal hs₁
      rw [hpq]
      exact and_congr_right fun hq => ih (hkeep hq) hrest

end Programs

/-! ## Machines -/

/-- An abstract machine: when an operation is legal, and what it does. -/
structure Machine (τ ι : Type*) where
  /-- The operation may be asked for in this state. -/
  legal : τ → ι → Prop
  /-- What the operation does. -/
  step : τ → ι → τ

namespace Machine

/-- The state after a list of operations. -/
def exec (M : Machine τ ι) (t : τ) (ops : List ι) : τ := ops.foldl M.step t

/-- A property of steps holds all along a run. -/
def Along (M : Machine τ ι) (p : τ → ι → Prop) : τ → List ι → Prop
  | _, [] => True
  | t, op :: ops => p t op ∧ M.Along p (M.step t op) ops

/-- Every operation is legal in the state it is asked for in. -/
abbrev Legal (M : Machine τ ι) : τ → List ι → Prop := M.Along M.legal

variable {M : Machine τ ι}

@[simp] theorem exec_nil (t : τ) : M.exec t [] = t := rfl

@[simp] theorem exec_cons (t : τ) (op : ι) (ops : List ι) :
    M.exec t (op :: ops) = M.exec (M.step t op) ops := rfl

@[simp] theorem along_nil (p : τ → ι → Prop) (t : τ) : M.Along p t [] := trivial

@[simp] theorem along_cons (p : τ → ι → Prop) (t : τ) (op : ι) (ops : List ι) :
    M.Along p t (op :: ops) ↔ p t op ∧ M.Along p (M.step t op) ops := Iff.rfl

/-- **A step simulation gives a run simulation**, as long as the guard holds. -/
theorem refines_guarded {step : σ → ι → Option σ} (guard : σ → ι → Prop) {R : σ → τ → Prop}
    (hstep : ∀ s t op, R s t → M.legal t op → guard s op →
      ∃ s', step s op = some s' ∧ R s' (M.step t op))
    {s : σ} {t : τ} {ops : List ι} (hR : R s t) (hlegal : M.Legal t ops)
    (hguard : Guarded step guard s ops) :
    ∃ s', ops.foldlM step s = some s' ∧ R s' (M.exec t ops) := by
  induction ops generalizing s t with
  | nil => exact ⟨s, rfl, hR⟩
  | cons op ops ih =>
      obtain ⟨s₁, hs₁, hR₁⟩ := hstep s t op hR hlegal.1 hguard.1
      obtain ⟨s', hs', hR'⟩ := ih hR₁ hlegal.2 (hguard.2 s₁ hs₁)
      exact ⟨s', by rw [List.foldlM_cons, hs₁]; exact hs', hR'⟩

/-- **A step simulation gives a run simulation.** -/
theorem refines {step : σ → ι → Option σ} {R : σ → τ → Prop}
    (hstep : ∀ s t op, R s t → M.legal t op → ∃ s', step s op = some s' ∧ R s' (M.step t op))
    {s : σ} {t : τ} {ops : List ι} (hR : R s t) (hlegal : M.Legal t ops) :
    ∃ s', ops.foldlM step s = some s' ∧ R s' (M.exec t ops) :=
  refines_guarded (fun _ _ => True) (fun s t op hR h _ => hstep s t op hR h) hR hlegal
    (guarded_trivial s ops)

/-- **Two programs keep in step** with a machine, as long as the guard of the first holds. -/
theorem lockstep {σ' : Type*} {step : σ → ι → Option σ} {step' : σ' → ι → Option σ'}
    (guard : σ → ι → Prop) {R : σ → σ' → τ → Prop}
    (hstep : ∀ s s' t op, R s s' t → M.legal t op → guard s op →
      ∃ s₁ s₁', step s op = some s₁ ∧ step' s' op = some s₁' ∧ R s₁ s₁' (M.step t op))
    {s : σ} {s' : σ'} {t : τ} {ops : List ι} (hR : R s s' t) (hlegal : M.Legal t ops)
    (hguard : Guarded step guard s ops) :
    ∃ s₁ s₁', ops.foldlM step s = some s₁ ∧ ops.foldlM step' s' = some s₁' ∧
      R s₁ s₁' (M.exec t ops) := by
  induction ops generalizing s s' t with
  | nil => exact ⟨s, s', rfl, rfl, hR⟩
  | cons op ops ih =>
      obtain ⟨s₁, s₁', hs₁, hs₁', hR₁⟩ := hstep s s' t op hR hlegal.1 hguard.1
      obtain ⟨s₂, s₂', hs₂, hs₂', hR₂⟩ := ih hR₁ hlegal.2 (hguard.2 s₁ hs₁)
      refine ⟨s₂, s₂', ?_, ?_, hR₂⟩
      · rw [List.foldlM_cons, hs₁]
        exact hs₂
      · rw [List.foldlM_cons, hs₁']
        exact hs₂'

/-- The machine that also remembers whether `p` held at every step so far. -/
def watched (M : Machine τ ι) (p : τ → ι → Prop) : Machine (τ × Prop) ι where
  legal t op := M.legal t.1 op
  step t op := (M.step t.1 op, t.2 ∧ p t.1 op)

theorem watched_legal {p : τ → ι → Prop} {t : τ} {q : Prop} {ops : List ι}
    (h : M.Legal t ops) : (M.watched p).Legal (t, q) ops := by
  induction ops generalizing t q with
  | nil => trivial
  | cons op ops ih => exact ⟨h.1, ih h.2⟩

theorem exec_watched (p : τ → ι → Prop) (t : τ) (q : Prop) (ops : List ι) :
    (M.watched p).exec (t, q) ops = (M.exec t ops, q ∧ M.Along p t ops) := by
  induction ops generalizing t q with
  | nil => simp
  | cons op ops ih =>
      rw [exec_cons, exec_cons, along_cons, ← and_assoc]
      exact ih _ _

end Machine

end Run
