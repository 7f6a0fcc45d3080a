import Mathlib.Algebra.BigOperators.Group.Multiset.Basic
import Mathlib.Data.Multiset.AddSub

/-!
# A ledger of resources

A trace lists the resources a program took and gave back, latest event first.
`live` is what is outstanding after the trace; a trace is `Disciplined` when it
gives back only what is outstanding at that moment.

A step of a program is described by what it exchanges: `Trades s s' old new` says
that the step turns the resources `old` into `new` and leaves every other
outstanding resource alone, whatever those are.  The quantification over the rest
is what lets the exchange made inside a part of a data structure be used for the
whole (`Trades.frame`).

## Main definitions

* `Ledger.Event β`, `Ledger.live`, `Ledger.Disciplined` — traces.
* `Ledger.Book σ β` — a state that keeps a ledger.
* `Ledger.Book.Trades` — exchanges, with `refl`, `trans` and `frame`.
-/

namespace Ledger

variable {σ β : Type*}

/-- An entry of a trace. -/
inductive Event (β : Type*)
  /-- A resource was handed out. -/
  | alloc (b : β)
  /-- A resource was given back. -/
  | free (b : β)
  deriving DecidableEq, Repr

section Traces

variable [DecidableEq β]

/-- What is outstanding after a trace, latest event first. -/
def live : List (Event β) → Multiset β
  | [] => 0
  | .alloc b :: t => b ::ₘ live t
  | .free b :: t => (live t).erase b

/-- Every resource given back was outstanding at that moment. -/
def Disciplined : List (Event β) → Prop
  | [] => True
  | .alloc _ :: t => Disciplined t
  | .free b :: t => b ∈ live t ∧ Disciplined t

/-- What came later does not matter for the discipline of what came earlier. -/
theorem Disciplined.of_append {later earlier : List (Event β)}
    (h : Disciplined (later ++ earlier)) : Disciplined earlier := by
  induction later with
  | nil => exact h
  | cons e later ih =>
      cases e with
      | alloc b => exact ih h
      | free b => exact ih h.2

theorem live_free_of_eq {t : List (Event β)} {b : β} {rest : Multiset β}
    (h : live t = rest + {b}) : live (.free b :: t) = rest := by
  simp only [live, h]
  rw [Multiset.erase_add_right_pos _ (Multiset.mem_singleton_self b)]
  simp

end Traces

/-- A state that keeps a ledger: what is outstanding, and the invariant under
which the ledger is meaningful. -/
structure Book (σ β : Type*) where
  /-- The outstanding resources. -/
  live : σ → Multiset β
  /-- The ledger is in order. -/
  Sound : σ → Prop

namespace Book

variable (L : Book σ β) {s s' s'' : σ} {old mid new : Multiset β}

/-- The step from `s` to `s'` exchanges `old` for `new` and touches nothing else. -/
def Trades (s s' : σ) (old new : Multiset β) : Prop :=
  ∀ rest, L.Sound s → L.live s = rest + old → L.Sound s' ∧ L.live s' = rest + new

variable {L}

theorem Trades.refl (s : σ) (old : Multiset β) : L.Trades s s old old :=
  fun _ hs hlive => ⟨hs, hlive⟩

theorem Trades.trans (h₁ : L.Trades s s' old mid) (h₂ : L.Trades s' s'' mid new) :
    L.Trades s s'' old new := by
  intro rest hs hlive
  obtain ⟨hs', hlive'⟩ := h₁ rest hs hlive
  exact h₂ rest hs' hlive'

/-- **Frame rule**: an exchange is also one of any larger part. -/
theorem Trades.frame (h : L.Trades s s' old new) (kept : Multiset β) :
    L.Trades s s' (kept + old) (kept + new) := by
  intro rest hs hlive
  rw [← add_assoc] at hlive ⊢
  exact h (rest + kept) hs hlive

theorem Trades.congr (h : L.Trades s s' old new) {old' new' : Multiset β}
    (ho : old' = old) (hn : new' = new) : L.Trades s s' old' new' := ho ▸ hn ▸ h

/-- Handing out something fresh, then giving back the old. -/
theorem Trades.swap (h₁ : L.Trades s s' 0 new) (h₂ : L.Trades s' s'' old 0) :
    L.Trades s s'' old new := by
  refine ((h₁.frame old).congr (add_zero old).symm rfl).trans ?_
  exact (h₂.frame new).congr (add_comm old new) (add_zero new).symm

end Book

end Ledger
